import DgxPlatform.Lib.EventStream
import DgxPlatform.Runner.LogStream

/-! # The log lines as server-sent events

The reader thread appends the engine's output line by line, and `/stream` writes a
line of the buffer into an event as it is. A browser reads the events with the rules
of `EventStream`, where a carriage return ends a line as well: what stands behind it
in the log line is no longer part of the `data` field.

* `Appendable` are the lines that the reader thread can append, `streamBytes` is what
  the handler writes.
-/

namespace Runner

open EventStream (Message)
open Text

/-! ## The lines of the reader thread -/

/-- A line feed may have a carriage return before it. -/
def stripCr (part : List Char) : List Char :=
  if part.getLast? = some '\r' then part.dropLast else part

/-- `BufRead::lines`: what stands behind the last line feed is a line unless it is empty. -/
def bufLines (output : List Char) : List (List Char) :=
  let parts := output.splitOn '\n'
  parts.dropLast.map stripCr ++ parts.getLast?.toList.filter (· ≠ [])

/-- What `read_output` appends to the buffer. -/
def appendedLines (output : List Char) : List (List Char) := (bufLines output).map trimEnd

/-- A line that the reader thread can append. -/
def Appendable (line : List Char) : Prop := ∃ output, line ∈ appendedLines output

theorem stripCr_subset (part : List Char) : stripCr part ⊆ part := by
  unfold stripCr
  split
  · exact List.dropLast_subset part
  · exact List.Subset.refl part

theorem not_mem_of_mem_bufLines {output line : List Char} (h : line ∈ bufLines output) :
    '\n' ∉ line := by
  have hparts : ∀ part ∈ output.splitOn '\n', '\n' ∉ part := by
    intro part hpart hmem
    rw [List.splitOn_eq_splitOnP] at hpart
    exact absurd (of_mem_splitOnP hpart _ hmem).2 (by decide)
  rcases List.mem_append.1 h with hended | hlast
  · obtain ⟨part, hpart, rfl⟩ := List.mem_map.1 hended
    exact fun hmem => hparts part (List.mem_of_mem_dropLast hpart) (stripCr_subset part hmem)
  · have hmem := (List.mem_filter.1 hlast).1
    rw [Option.mem_toList] at hmem
    exact hparts line (List.mem_of_getLast? hmem)

/-- They are the texts without a line feed and without white space at the end. -/
theorem appendable_iff {line : List Char} :
    Appendable line ↔ '\n' ∉ line ∧ trimEnd line = line := by
  constructor
  · rintro ⟨output, h⟩
    obtain ⟨raw, hraw, rfl⟩ := List.mem_map.1 h
    have hkept := trimEndMatches_isPrefix isWhitespace raw
    refine ⟨fun hmem => not_mem_of_mem_bufLines hraw (hkept.subset hmem), ?_⟩
    exact List.rdropWhile_idempotent isWhitespace raw
  · rintro ⟨hfeed, htrim⟩
    cases line with
    | nil => exact ⟨['\n'], by decide⟩
    | cons c line =>
      refine ⟨c :: line, List.mem_map.2 ⟨c :: line, ?_, htrim⟩⟩
      have hsplit : (c :: line).splitOn '\n' = [c :: line] := List.splitOn_eq_singleton hfeed
      simp [bufLines, hsplit]

/-! ## The bytes of the stream -/

/-- How the handler writes an event. -/
def Event.text : Event → List Char
  | .clear => "event: clear\ndata: \n\n".toList
  | .data line => "data: ".toList ++ line.toList ++ "\n\n".toList
  | .ping => ": ping\n\n".toList

def streamBytes (events : List Event) : List UInt8 := Utf8.encode (events.flatMap Event.text)

/-- What a browser should dispatch for it. -/
def Event.message? : Event → Option Message
  | .clear => some ⟨"clear".toList, []⟩
  | .data line => some ⟨"message".toList, line.toList⟩
  | .ping => none

/-- No line end in a data line. -/
def Event.OneLine (e : Event) : Prop :=
  ∀ line, e = .data line → '\n' ∉ line.toList ∧ '\r' ∉ line.toList

/-! ## What the browser reads -/

variable {events : List Event}

/-- A `data` line and an empty line: a message with the name gathered before. -/
theorem dispatch_data (name value : List Char) (ls : List (List Char)) :
    EventStream.dispatch ⟨name, []⟩ (("data: ".toList ++ value) :: [] :: ls) =
      ⟨if name = [] then "message".toList else name, value⟩ :: EventStream.dispatch {} ls := by
  have hdata : ([] ++ value ++ ['\n'] : List Char) ≠ [] := by simp
  have hmessage : (⟨name, [] ++ value ++ ['\n']⟩ : EventStream.Buffer).message =
      ⟨if name = [] then "message".toList else name, value⟩ := by
    rw [EventStream.Buffer.message, List.nil_append, List.dropLast_concat]
  rw [EventStream.dispatch, EventStream.line_data, EventStream.dispatch, EventStream.line_nil hdata, hmessage]
  rfl

/-- An event that is written is dispatched, and nothing of it is left. -/
theorem dispatch_event {e : Event} (h : e.OneLine) (t : List Char) :
    EventStream.dispatch {} (EventStream.lines (e.text ++ t)) =
      e.message?.toList ++ EventStream.dispatch {} (EventStream.lines t) := by
  have hblank : EventStream.lines ('\n' :: t) = [] :: EventStream.lines t :=
    @EventStream.lines_cons [] t List.not_mem_nil List.not_mem_nil
  cases e with
  | clear =>
    have htext : Event.clear.text ++ t =
        "event: clear".toList ++ '\n' :: ("data: ".toList ++ '\n' :: '\n' :: t) := by
      have hsplit : Event.clear.text =
          "event: clear".toList ++ '\n' :: ("data: ".toList ++ ['\n', '\n']) := by decide
      simp [hsplit]
    have hname : EventStream.Buffer.line {} "event: clear".toList = (⟨"clear".toList, []⟩, []) := by
      decide +kernel
    rw [htext, EventStream.lines_cons (by decide) (by decide),
      EventStream.lines_cons (by decide) (by decide), hblank, EventStream.dispatch, hname]
    exact dispatch_data "clear".toList [] _
  | data line =>
    obtain ⟨hfeed, hreturn⟩ := h line rfl
    have htext : (Event.data line).text ++ t =
        ("data: ".toList ++ line.toList) ++ '\n' :: '\n' :: t :=
      List.append_assoc ("data: ".toList ++ line.toList) ['\n', '\n'] t
    rw [htext, EventStream.lines_cons (by simpa using hreturn) (by simpa using hfeed), hblank]
    exact dispatch_data [] line.toList _
  | ping =>
    have htext : Event.ping.text ++ t = ": ping".toList ++ '\n' :: '\n' :: t := by
      have hsplit : Event.ping.text = ": ping".toList ++ ['\n', '\n'] := by decide
      simp [hsplit]
    have hcomment : EventStream.Buffer.line {} ": ping".toList = ({}, []) :=
      EventStream.line_comment {} _
    rw [htext, EventStream.lines_cons (by decide) (by decide), hblank, EventStream.dispatch,
      hcomment]
    rfl

theorem dispatch_events (h : ∀ e ∈ events, e.OneLine) :
    EventStream.dispatch {} (EventStream.lines (events.flatMap Event.text)) =
      events.filterMap Event.message? := by
  induction events with
  | nil => rfl
  | cons e events ih =>
    rw [List.forall_mem_cons] at h
    rw [List.flatMap_cons, dispatch_event h.1, ih h.2, List.filterMap_cons]
    cases e.message? with
    | none => rfl
    | some m => rfl

theorem stripBom_events (events : List Event) :
    EventStream.stripBom (events.flatMap Event.text) = events.flatMap Event.text := by
  cases events with
  | nil => rfl
  | cons e events => cases e <;> rfl

/-- The browser receives every event exactly when no line of the log holds a carriage
return. -/
theorem decode_streamBytes_iff (h : ∀ line, .data line ∈ events → '\n' ∉ line.toList) :
    EventStream.decode (streamBytes events) = events.filterMap Event.message? ↔
      ∀ line, .data line ∈ events → '\r' ∉ line.toList := by
  constructor
  · intro hdecode line hmem
    have hmessage : ⟨"message".toList, line.toList⟩ ∈ EventStream.decode (streamBytes events) := by
      rw [hdecode]
      exact List.mem_filterMap.2 ⟨.data line, hmem, rfl⟩
    exact EventStream.not_mem_of_decode _ _ hmessage
  · intro hreturn
    have hone : ∀ e ∈ events, e.OneLine := by
      rintro e he line rfl
      exact ⟨h line he, hreturn line he⟩
    rw [EventStream.decode, streamBytes, Utf8.lossy_encode, stripBom_events, dispatch_events hone]

/-- The lines that the reader thread has appended come out of the stream as they are exactly
when none of them holds a carriage return. -/
theorem lines_survive_iff (lines : List String) (h : ∀ line ∈ lines, Appendable line.toList) :
    EventStream.decode (streamBytes (lines.map Event.data)) =
        lines.map (fun line => ⟨"message".toList, line.toList⟩) ↔
      ∀ line ∈ lines, '\r' ∉ line.toList := by
  have hmem : ∀ line, Event.data line ∈ lines.map Event.data ↔ line ∈ lines := by simp
  have hmessages : (lines.map Event.data).filterMap Event.message? =
      lines.map (fun line => ⟨"message".toList, line.toList⟩) := by
    rw [List.filterMap_map]
    exact congrFun List.filterMap_eq_map lines
  have hiff := @decode_streamBytes_iff (lines.map Event.data) fun line hline =>
    (appendable_iff.1 (h line ((hmem line).1 hline))).1
  rw [← hmessages, hiff]
  simp only [hmem]

/-- Two lines without a carriage return. -/
theorem lines_survive_plain :
    EventStream.decode (streamBytes (["", "loading: 3 shards"].map Event.data)) =
      [⟨"message".toList, []⟩, ⟨"message".toList, "loading: 3 shards".toList⟩] :=
  (lines_survive_iff ["", "loading: 3 shards"] fun line hline =>
    appendable_iff.2 (by revert line; decide)).2 (by decide)

/-- A progress bar that rewrites its line: the client sees the first state of it. -/
theorem progress_bar_cut :
    appendedLines "10%\r20%\n".toList = ["10%\r20%".toList] ∧
      EventStream.decode (streamBytes [.data "10%\r20%"]) =
        [⟨"message".toList, "10%".toList⟩] ∧
      EventStream.decode (streamBytes [.data "10%\r20%"]) ≠
        [⟨"message".toList, "10%\r20%".toList⟩] := by
  have hdecode : EventStream.decode (streamBytes [.data "10%\r20%"]) =
      [⟨"message".toList, "10%".toList⟩] := by
    decide +kernel
  refine ⟨by decide, hdecode, ?_⟩
  rw [hdecode]
  decide

end Runner
