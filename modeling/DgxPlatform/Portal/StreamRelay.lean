import DgxPlatform.Lib.Framing
import DgxPlatform.Lib.Trim
import DgxPlatform.Lib.Utf8
import DgxPlatform.Portal.PyDumps

/-! # The relay of a playground turn

The model's answer goes through three readers. A reader task cuts the upstream's
bytes into lines, the relay sends each line on as a server-sent event and adds
events of its own, and `readSSE` in the browser cuts the text into events again
and parses them.

* `Source` is an upstream event stream, as lines; `Source.bytes` what it sends.
* `Faithful` says that the browser receives the upstream's payloads, whatever
  the pieces in which the bytes arrive, and that nothing follows `[DONE]`.

`serde` and `parse` are the two JSON parsers.
-/

namespace Portal.Relay

open Text PyDumps

/-! ## Frames -/

/-- The comments the portal sends to keep the connection alive. -/
inductive Comment where
  | ouverture
  | recherche
  | heartbeat
  | attente
deriving DecidableEq, Repr

def Comment.text : Comment → List Char
  | .ouverture => ": ouverture".toList
  | .recherche => ": recherche".toList
  | .heartbeat => ": heartbeat".toList
  | .attente => ": attente".toList

/-- What is sent: a comment or an event of the portal's own, a line of the
upstream, or the end. -/
inductive Frame where
  | comment (c : Comment)
  | own (payload : JsonText)
  | line (txt : List Char)
  | done

def dataField : List Char := "data:".toList

def dataPrefix : List Char := "data: ".toList

def doneText : List Char := "[DONE]".toList

def Frame.text : Frame → List Char
  | .comment c => c.text
  | .own p => dataPrefix ++ p.text
  | .line txt => txt
  | .done => dataPrefix ++ doneText

/-- `data_frame` of an object. -/
def dataFrame (fields : List (String × Json)) : Frame := .own (objectText fields)

/-- `notice`. -/
def notice (id : String) (args : List (String × Json)) (done : Bool) : List Frame :=
  dataFrame [("dgx_notice", .obj (("id", .str id.toList) :: args))]
    :: if done then [.done] else []

/-- The event that says that the answer was cut. -/
def lengthFrame : Frame :=
  dataFrame [("choices", .arr [.obj [("delta", .obj []), ("finish_reason", .str "length".toList)]])]

/-! ## The reader task -/

/-- What the reader hands the relay. -/
inductive Upstream where
  | line (txt : List Char)
  | status (code : Nat)
  | failed (timeout : Bool)

/-- How the upstream's body ends. -/
inductive Ending where
  | closed
  | failed (timeout : Bool)
deriving DecidableEq, Repr

/-- A line: decoded, without the carriage returns at its end. -/
def lineOf (raw : List UInt8) : List Char := trimEndMatches (· == '\r') (Utf8.lossy raw)

def lineFeed : List UInt8 := [10]

/-- The lines of the pieces received; at the end also what is left over. -/
def reader (chunks : List (List UInt8)) (e : Ending) : List Upstream :=
  let r := Framing.feed lineFeed [] chunks
  r.1.map (fun raw => .line (lineOf raw)) ++
    match e with
    | .closed => if r.2 = [] then [] else [.line (lineOf r.2)]
    | .failed timeout => [.failed timeout]

/-! ## The relay -/

section Relay

variable (serde : List Char → Option Json)

/-- The pointer `/choices/0`. -/
def firstChoice (v : Json) : Option Json :=
  (v.get? "choices").bind fun
    | .arr xs => xs.head?
    | .obj fields => fields.lookup "0"
    | _ => none

def deltaKey : List Char := "\"delta\"".toList

def finishKey : List Char := "\"finish_reason\"".toList

def tokensKey : List Char := "\"completion_tokens\"".toList

/-- The finish reason that the relay takes from a line. -/
def finishOf (txt : List Char) : Option (List Char) :=
  if contains txt finishKey || contains txt tokensKey then
    if dataPrefix <+: txt then
      ((serde (txt.drop dataPrefix.length)).bind fun v =>
        ((firstChoice v).bind (·.get? "finish_reason")).bind Json.str?).filter (· ≠ [])
    else none
  else none

/-- The content and the reasoning of a line's delta. -/
def deltaOf (txt : List Char) : Option (List Char × List Char) :=
  if dataPrefix <+: txt ∧ contains txt deltaKey then
    (serde (txt.drop dataPrefix.length)).map fun v =>
      let delta := (firstChoice v).bind (·.get? "delta")
      let field (key : String) := ((delta.bind (·.get? key)).bind Json.str?).getD []
      (field "content", field "reasoning_content")
  else none

/-- The relay's variables that decide what is sent, and what it has sent. -/
structure State where
  finish : Option (List Char) := none
  ttftSeen : Bool := false
  answer : List Char := []
  sent : List Frame := []

def State.delta (r : State) (txt : List Char) : State :=
  match deltaOf serde txt with
  | none => r
  | some (content, reasoning) =>
      if 0 < content.length + reasoning.length then
        { r with
          ttftSeen := true
          answer := if content ≠ [] ∧ r.answer.length < 200000 then r.answer ++ content
            else r.answer }
      else r

/-- A line of the upstream. -/
def State.line (r : State) (txt : List Char) : State :=
  if txt = [] then r
  else
    let r := r.delta serde txt
    { r with finish := (finishOf serde txt).or r.finish, sent := r.sent ++ [.line txt] }

/-- Five seconds without a line: a comment, and what `queue_event` has to say as long
as no token was seen. -/
def State.wait (r : State) (queue : Option JsonText) : State :=
  { r with
    sent := r.sent ++ .comment .attente ::
      if r.ttftSeen then [] else (queue.map Frame.own).toList }

/-- Why the loop ended. -/
inductive Outcome where
  | closed
  | status (code : Nat)
  | failed (timeout : Bool)
deriving DecidableEq, Repr

/-- The loop; `waits i` are the waits before the item numbered `i`. -/
def loop (waits : Nat → List (Option JsonText)) : Nat → List Upstream → State → State × Outcome
  | i, [], r => ((waits i).foldl State.wait r, .closed)
  | i, .line txt :: items, r =>
      loop waits (i + 1) items (((waits i).foldl State.wait r).line serde txt)
  | i, .status code :: _, r => ((waits i).foldl State.wait r, .status code)
  | i, .failed timeout :: _, r => ((waits i).foldl State.wait r, .failed timeout)

/-- The rest of a turn: the portal's frames before the relay, the waits, how many
images an answer cites that do not exist, and when the budget is reset. -/
structure Turn where
  before : List (Comment ⊕ JsonText)
  waits : Nat → List (Option JsonText)
  invented : List Char → Nat
  reset : List Char

/-- What is sent after the loop. -/
def Turn.closing (t : Turn) (r : State) : Outcome → List Frame
  | .failed timeout =>
      notice (if timeout then "model_timeout" else "model_unreachable") [] true
  | .status code =>
      if code = 429 then notice "quota_exceeded" [("reset", .str t.reset)] true
      else notice "model_replied_error" [("status", .num code)] true
  | .closed =>
      (if r.finish = none then [lengthFrame, .done] else []) ++
        if contains r.answer "/image/file/".toList ∧ 0 < t.invented r.answer then
          notice "image_invented" [("count", .num (t.invented r.answer))] false
        else []

/-- All that is sent in a turn. -/
def Turn.frames (t : Turn) (items : List Upstream) : List Frame :=
  let r := loop serde t.waits 0 items {}
  .comment .ouverture :: t.before.map (Sum.elim Frame.comment Frame.own) ++ r.1.sent ++
    t.closing r.1 r.2

end Relay

def blankLine : List Char := ['\n', '\n']

/-- The bytes of the response. -/
def relayed (fs : List Frame) : List UInt8 :=
  Utf8.encode (fs.flatMap fun f => f.text ++ blankLine)

/-! ## The browser -/

/-- A `TextDecoder`: it leaves out a byte order mark at the start. -/
structure Decoder where
  state : Utf8.State := .start
  begun : Bool := false

def byteOrderMark : Char := Char.ofNat 0xFEFF

/-- `decode(value, { stream: true })`. -/
def Decoder.decode (d : Decoder) (value : List UInt8) : List Char × Decoder :=
  let r := Utf8.feed d.state value
  if d.begun then (r.1, ⟨r.2, true⟩)
  else
    match r.1 with
    | [] => ([], ⟨r.2, false⟩)
    | c :: t => (if c = byteOrderMark then t else c :: t, ⟨r.2, true⟩)

/-- The texts of the pieces received. -/
def decodeAll : Decoder → List (List UInt8) → List (List Char)
  | _, [] => []
  | d, value :: net => (d.decode value).1 :: decodeAll (d.decode value).2 net

/-- What stands behind `data:` in a part. -/
def payloadOf (part : List Char) : Option (List Char) :=
  ((Framing.split ['\n'] part).find? fun l => decide (dataField <+: l)).map fun l =>
    trimMatches isJsSpace (l.drop dataField.length)

/-- What `onEvent` is called with for a part. -/
def event (parse : List Char → Option Json) (part : List Char) : Option Json :=
  (payloadOf part).bind fun p => if p = doneText then none else parse p

/-- The calls of `onEvent`, over the pieces that `reader.read()` returns. -/
def readSSE (parse : List Char → Option Json) (net : List (List UInt8)) : List Json :=
  (Framing.feed blankLine [] (decodeAll {} net)).1.filterMap (event parse)

/-! ## The upstream's event stream -/

inductive Eol where
  | lf
  | crlf
deriving DecidableEq, Repr

def Eol.cr : Eol → List UInt8
  | .lf => []
  | .crlf => [13]

/-- A line that is no `data:` line: a comment, another field, an empty line. -/
structure OtherLine where
  raw : List UInt8
  single : 10 ∉ raw
  notData : ¬ dataField <+: Utf8.lossy raw

inductive SourceLine where
  | json (p : JsonText)
  | other (o : OtherLine)

def SourceLine.raw : SourceLine → List UInt8
  | .json p => Utf8.encode (dataPrefix ++ p.text)
  | .other o => o.raw

/-- An event stream: lines, and possibly `[DONE]` with what is no data behind it. -/
structure Source where
  lines : List (SourceLine × Eol)
  done : Option (Eol × List (OtherLine × Eol))

def Source.raws (s : Source) : List (List UInt8) :=
  s.lines.map (fun l => l.1.raw ++ l.2.cr) ++
    match s.done with
    | none => []
    | some (eol, after) =>
        (Utf8.encode (dataPrefix ++ doneText) ++ eol.cr) :: after.map fun l => l.1.raw ++ l.2.cr

def Source.bytes (s : Source) : List UInt8 := s.raws.flatMap (· ++ lineFeed)

/-- The payloads, in order. -/
def Source.payloads (s : Source) : List JsonText :=
  s.lines.filterMap fun l =>
    match l.1 with
    | .json p => some p
    | .other _ => none

/-- A line as it is relayed. -/
def SourceLine.text : SourceLine → List Char
  | .json p => dataPrefix ++ p.text
  | .other o => lineOf o.raw

def Source.texts (s : Source) : List (List Char) :=
  s.lines.map (·.1.text) ++
    match s.done with
    | none => []
    | some (_, after) => (dataPrefix ++ doneText) :: after.map fun l => lineOf l.1.raw

/-! ## The property -/

/-- A frame that does not come from the upstream: its payload is the portal's. -/
def Frame.isOwn : Frame → Bool
  | .comment _ | .own _ => true
  | .line _ | .done => false

/-- The browser reads `[DONE]`. -/
def Frame.isDone (f : Frame) : Prop := payloadOf f.text = some doneText

/-- An upstream line with a payload. -/
def Frame.carries (f : Frame) : Prop :=
  f.isOwn = false ∧ ∃ p, payloadOf f.text = some p ∧ p ≠ doneText

/-- In whatever pieces the response arrives, each frame's payload is passed on once and
in order; without the portal's own these are the upstream's payloads; and after `[DONE]`
there is neither another one nor a payload of the upstream. -/
structure Faithful (parse : List Char → Option Json) (s : Source) (fs : List Frame) : Prop where
  delivered : ∀ net : List (List UInt8), net.flatten = relayed fs →
    readSSE parse net = fs.filterMap fun f => event parse f.text
  payloads : (fs.filter (!·.isOwn)).filterMap (fun f => event parse f.text) =
    s.payloads.filterMap fun p => parse p.text
  ended : fs.Pairwise fun f g => f.isDone → ¬ g.isDone ∧ ¬ g.carries

/-! ## The browser reads the frames -/

theorem decodeAll_begun (s : Utf8.State) (net : List (List UInt8)) :
    (decodeAll ⟨s, true⟩ net).flatten = (Utf8.feed s net.flatten).1 := by
  induction net generalizing s with
  | nil => rfl
  | cons value net ih =>
    rw [List.flatten_cons, Utf8.feed_append, ← ih]
    rfl

/-- The pieces make up the text, if it does not start with a byte order mark. -/
theorem decodeAll_flatten (s : Utf8.State) (net : List (List UInt8))
    (h : (Utf8.feed s net.flatten).1.head? ≠ some byteOrderMark) :
    (decodeAll ⟨s, false⟩ net).flatten = (Utf8.feed s net.flatten).1 := by
  induction net generalizing s with
  | nil => rfl
  | cons value net ih =>
    rw [List.flatten_cons, Utf8.feed_append] at h ⊢
    cases hr : (Utf8.feed s value).1 with
    | nil =>
      rw [hr, List.nil_append] at h
      have hd : Decoder.decode ⟨s, false⟩ value = ([], ⟨(Utf8.feed s value).2, false⟩) := by
        simp [Decoder.decode, hr]
      rw [decodeAll, hd, List.flatten_cons, ih _ h]
    | cons c t =>
      have hc : c ≠ byteOrderMark := by
        intro hc
        rw [hr, hc] at h
        exact h rfl
      have hd : Decoder.decode ⟨s, false⟩ value = (c :: t, ⟨(Utf8.feed s value).2, true⟩) := by
        simp [Decoder.decode, hr, hc]
      rw [decodeAll, hd, List.flatten_cons, decodeAll_begun]

theorem readSSE_eq {fs : List Frame} (parse : List Char → Option Json)
    (hsingle : ∀ f ∈ fs, '\n' ∉ f.text)
    (hstart : (fs.flatMap fun f => f.text ++ blankLine).head? ≠ some byteOrderMark)
    {net : List (List UInt8)} (hnet : net.flatten = relayed fs) :
    readSSE parse net = fs.filterMap fun f => event parse f.text := by
  have htext : (decodeAll {} net).flatten = fs.flatMap fun f => f.text ++ blankLine := by
    have hfeed : Utf8.feed .start net.flatten
        = (fs.flatMap (fun f => f.text ++ blankLine), .start) := by
      rw [hnet, relayed, Utf8.feed_encode]
    have hall := decodeAll_flatten .start net (by rwa [hfeed])
    rwa [hfeed] at hall
  have hparts : Framing.frames blankLine (fs.flatMap fun f => f.text ++ blankLine)
      = (fs.map Frame.text, []) := by
    have hfound := @Framing.frames_flatMap Char _ '\n' ['\n'] (fs.map Frame.text)
      (by simpa using hsingle) [] List.not_mem_nil
    rwa [List.append_nil, List.flatMap_map] at hfound
  rw [readSSE, Framing.feed_eq (by decide), htext, hparts, List.filterMap_map]
  rfl

/-! ## Payloads -/

theorem payloadOf_single {t : List Char} (h : '\n' ∉ t) :
    payloadOf t = if dataField <+: t then some (trimMatches isJsSpace (t.drop dataField.length))
      else none := by
  rw [payloadOf, Framing.split_of_not_mem h]
  by_cases hd : dataField <+: t <;> simp [hd]

theorem payloadOf_data {p : List Char} (h : '\n' ∉ p) :
    payloadOf (dataPrefix ++ p) = some (trimMatches isJsSpace p) := by
  have hsingle : '\n' ∉ dataPrefix ++ p := by
    rw [List.mem_append, not_or]
    exact ⟨by decide, h⟩
  have hprefix : dataField <+: dataPrefix ++ p := ⟨' ' :: p, rfl⟩
  rw [payloadOf_single hsingle, if_pos hprefix]
  -- the blank behind the colon is trimmed
  rfl

theorem newline_not_mem_text (p : JsonText) : '\n' ∉ p.text := by
  simp [JsonText.text, p.single]

theorem payloadOf_json (p : JsonText) : payloadOf (dataPrefix ++ p.text) = some p.text := by
  rw [payloadOf_data (newline_not_mem_text p)]
  have hopen : isJsSpace '\x7b' = false := by decide
  have hclose : isJsSpace '\x7d' = false := by decide
  have hstart : p.text.dropWhile isJsSpace = p.text :=
    List.dropWhile_cons_of_neg (by simp [hopen])
  rw [trimMatches, hstart, JsonText.text, trimEndMatches_append_cons (b := []) hclose]
  rfl

theorem text_ne_doneText (p : JsonText) : p.text ≠ doneText := by
  intro h
  cases (List.cons.inj h).1

theorem payloadOf_done : payloadOf (dataPrefix ++ doneText) = some doneText := by
  rw [payloadOf_data (by decide)]
  decide

theorem payloadOf_comment (c : Comment) : payloadOf c.text = none := by
  cases c <;> decide

/-! ## The reader finds the lines -/

theorem lineOf_cr (raw : List UInt8) (eol : Eol) : lineOf (raw ++ eol.cr) = lineOf raw := by
  cases eol with
  | lf => simp [Eol.cr]
  | crlf =>
    rw [lineOf, Eol.cr, Utf8.lossy_append_ascii raw (by decide)]
    refine trimEndMatches_append_of_all fun c hc => ?_
    rw [List.mem_singleton.1 hc]
    decide

/-- A text that does not end in a carriage return is read as it was written. -/
theorem lineOf_encode {t : List Char} {c : Char} (hc : c ≠ '\r') :
    lineOf (Utf8.encode (t ++ [c])) = t ++ [c] := by
  rw [lineOf, Utf8.lossy_encode]
  exact trimEndMatches_append_cons (b := []) (by simpa using hc)

theorem lineOf_raw (l : SourceLine) : lineOf l.raw = l.text := by
  cases l with
  | json p =>
    have htext : dataPrefix ++ p.text = (dataPrefix ++ '\x7b' :: p.inner) ++ ['\x7d'] := by
      simp [JsonText.text]
    rw [SourceLine.raw, SourceLine.text, htext]
    exact lineOf_encode (by decide)
  | other o => rfl

theorem map_lineOf_raws (s : Source) : s.raws.map lineOf = s.texts := by
  have hdone : lineOf (Utf8.encode (dataPrefix ++ doneText)) = dataPrefix ++ doneText :=
    lineOf_encode (t := dataPrefix ++ "[DONE".toList) (by decide)
  unfold Source.raws Source.texts
  rw [List.map_append, List.map_map]
  refine congr (congrArg _ (List.map_congr_left fun l _ => ?_)) ?_
  · rw [Function.comp_apply, lineOf_cr, lineOf_raw]
  · cases s.done with
    | none => rfl
    | some d =>
      simp only [List.map_cons, List.map_map, lineOf_cr, hdone]
      refine congrArg _ (List.map_congr_left fun l _ => ?_)
      rw [Function.comp_apply, lineOf_cr]

theorem lineFeed_not_mem_cr (eol : Eol) : (10 : UInt8) ∉ eol.cr := by
  cases eol <;> decide

theorem lineFeed_not_mem_raw (l : SourceLine) : (10 : UInt8) ∉ l.raw := by
  cases l with
  | json p =>
    refine Utf8.not_mem_encode (by decide) ?_
    rw [List.mem_append, not_or]
    exact ⟨by decide, newline_not_mem_text p⟩
  | other o => exact o.single

theorem lineFeed_not_mem_raws (s : Source) : ∀ raw ∈ s.raws, (10 : UInt8) ∉ raw := by
  intro raw hraw
  unfold Source.raws at hraw
  rcases List.mem_append.1 hraw with hraw | hraw
  · obtain ⟨l, -, rfl⟩ := List.mem_map.1 hraw
    rw [List.mem_append, not_or]
    exact ⟨lineFeed_not_mem_raw l.1, lineFeed_not_mem_cr l.2⟩
  · cases hd : s.done with
    | none => simp [hd] at hraw
    | some d =>
      simp only [hd] at hraw
      rcases List.mem_cons.1 hraw with rfl | hraw
      · rw [List.mem_append, not_or]
        exact ⟨Utf8.not_mem_encode (by decide) (by decide), lineFeed_not_mem_cr d.1⟩
      · obtain ⟨l, -, rfl⟩ := List.mem_map.1 hraw
        rw [List.mem_append, not_or]
        exact ⟨l.1.single, lineFeed_not_mem_cr l.2⟩

/-- What comes behind the lines. -/
def Ending.items : Ending → List Upstream
  | .closed => []
  | .failed timeout => [.failed timeout]

/-- However the upstream's bytes are divided, its lines are handed over. -/
theorem reader_eq {s : Source} {chunks : List (List UInt8)} (h : chunks.flatten = s.bytes)
    (e : Ending) : reader chunks e = s.texts.map Upstream.line ++ e.items := by
  have hlines : Framing.feed lineFeed [] chunks = (s.raws, []) := by
    have hfound := @Framing.frames_flatMap UInt8 _ 10 [] _
      (lineFeed_not_mem_raws s) [] List.not_mem_nil
    rw [List.append_nil] at hfound
    rw [Framing.feed_eq (by decide), h]
    exact hfound
  simp only [reader, hlines]
  rw [← map_lineOf_raws, List.map_map]
  cases e <;> rfl

theorem newline_not_mem_texts (s : Source) : ∀ t ∈ s.texts, '\n' ∉ t := by
  intro t ht
  rw [← map_lineOf_raws] at ht
  obtain ⟨raw, hraw, rfl⟩ := List.mem_map.1 ht
  intro hmem
  have hlossy : '\n' ∈ Utf8.lossy raw := (trimEndMatches_isPrefix _ _).subset hmem
  exact Utf8.not_mem_lossy (by decide) (by decide) (lineFeed_not_mem_raws s raw hraw) hlossy

/-! ## The loop -/

section Loop

variable {serde : List Char → Option Json} {r : State}

/-- What the upstream sent of the frames. -/
def upstreamOf (fs : List Frame) : List Frame := fs.filter (!·.isOwn)

/-- The frames of nonempty lines. -/
def lineFrames (texts : List (List Char)) : List Frame :=
  (texts.filter (· ≠ [])).map Frame.line

@[simp] theorem upstreamOf_append (fs gs : List Frame) :
    upstreamOf (fs ++ gs) = upstreamOf fs ++ upstreamOf gs := List.filter_append ..

theorem lineFrames_append (a b : List (List Char)) :
    lineFrames (a ++ b) = lineFrames a ++ lineFrames b := by
  rw [lineFrames, List.filter_append, List.map_append]
  rfl

theorem upstreamOf_own {fs : List Frame} (h : ∀ f ∈ fs, f.isOwn = true) : upstreamOf fs = [] := by
  simpa [upstreamOf] using h

theorem finishOf_nil : finishOf serde [] = none := by
  have hno : (contains [] finishKey || contains [] tokensKey) = false := by decide
  rw [finishOf, hno]
  rfl

theorem State.sent_delta (r : State) (txt : List Char) : (r.delta serde txt).sent = r.sent := by
  unfold State.delta
  split
  · rfl
  · split <;> rfl

theorem State.finish_delta (r : State) (txt : List Char) :
    (r.delta serde txt).finish = r.finish := by
  unfold State.delta
  split
  · rfl
  · split <;> rfl

theorem State.upstreamOf_line (r : State) (txt : List Char) :
    upstreamOf (r.line serde txt).sent = upstreamOf r.sent ++ lineFrames [txt] := by
  unfold State.line
  by_cases h : txt = []
  · simp [h, lineFrames]
  · simp [h, lineFrames, State.sent_delta, upstreamOf, Frame.isOwn]

theorem State.finish_line (r : State) (txt : List Char) :
    (r.line serde txt).finish = (finishOf serde txt).or r.finish := by
  unfold State.line
  by_cases h : txt = []
  · rw [if_pos h, h, finishOf_nil]
    rfl
  · simp [h, State.finish_delta]

theorem State.finish_waits (r : State) (queues : List (Option JsonText)) :
    (queues.foldl State.wait r).finish = r.finish := by
  induction queues generalizing r with
  | nil => rfl
  | cons q queues ih => rw [List.foldl_cons, ih, State.wait]

theorem State.upstreamOf_waits (r : State) (queues : List (Option JsonText)) :
    upstreamOf (queues.foldl State.wait r).sent = upstreamOf r.sent := by
  induction queues generalizing r with
  | nil => rfl
  | cons q queues ih =>
    have hwait : upstreamOf (r.wait q).sent = upstreamOf r.sent := by
      cases q <;> cases hr : r.ttftSeen <;> simp [State.wait, upstreamOf, Frame.isOwn, hr]
    rw [List.foldl_cons, ih, hwait]

/-- The frames hold no line feed. -/
def Single (fs : List Frame) : Prop := ∀ f ∈ fs, '\n' ∉ f.text

theorem newline_not_mem_own (f : Frame) (h : f.isOwn = true) : '\n' ∉ f.text := by
  cases f with
  | comment c => cases c <;> decide
  | own p =>
    rw [Frame.text, List.mem_append, not_or]
    exact ⟨by decide, newline_not_mem_text p⟩
  | line | done => cases h

theorem single_iff {fs : List Frame} : Single fs ↔ Single (upstreamOf fs) := by
  refine ⟨fun h f hf => h f (List.mem_filter.1 hf).1, fun h f hf => ?_⟩
  cases hown : f.isOwn with
  | true => exact newline_not_mem_own f hown
  | false => exact h f (List.mem_filter.2 ⟨hf, by simp [hown]⟩)

/-- How the loop ends. -/
def Ending.outcome : Ending → Outcome
  | .closed => .closed
  | .failed timeout => .failed timeout

/-- The loop sends the nonempty lines on, in order, and takes its finish reason from
them. -/
theorem loop_lines (waits : Nat → List (Option JsonText)) (e : Ending)
    (texts : List (List Char)) (i : Nat) (r : State) :
    ∃ r', loop serde waits i (texts.map Upstream.line ++ e.items) r = (r', e.outcome) ∧
      upstreamOf r'.sent = upstreamOf r.sent ++ lineFrames texts ∧
      (r'.finish = none ↔ r.finish = none ∧ ∀ t ∈ texts, finishOf serde t = none) := by
  induction texts generalizing i r with
  | nil =>
    refine ⟨(waits i).foldl State.wait r, ?_, ?_, ?_⟩
    · cases e <;> rfl
    · rw [State.upstreamOf_waits]
      exact (List.append_nil _).symm
    · simp [State.finish_waits]
  | cons t texts ih =>
    obtain ⟨r', hloop, hsent, hfinish⟩ :=
      ih (i + 1) (((waits i).foldl State.wait r).line serde t)
    refine ⟨r', hloop, ?_, ?_⟩
    · rw [hsent, State.upstreamOf_line, State.upstreamOf_waits, List.append_assoc]
      exact congrArg _ (lineFrames_append [t] texts).symm
    · rw [hfinish, State.finish_line, State.finish_waits, Option.or_eq_none_iff]
      simp only [List.forall_mem_cons]
      tauto

theorem upstreamOf_frames (t : Turn) (e : Ending) (texts : List (List Char)) :
    upstreamOf (t.frames serde (texts.map Upstream.line ++ e.items)) = lineFrames texts ++
      if e = .closed ∧ ∃ txt ∈ texts, finishOf serde txt ≠ none then [] else [.done] := by
  obtain ⟨r', hloop, hsent, hfinish⟩ := @loop_lines serde t.waits e texts 0 {}
  have hbefore : upstreamOf (.comment .ouverture :: t.before.map (Sum.elim Frame.comment Frame.own))
      = [] := by
    refine upstreamOf_own fun f hf => ?_
    rcases List.mem_cons.1 hf with rfl | hf
    · rfl
    · obtain ⟨b, -, rfl⟩ := List.mem_map.1 hf
      cases b <;> rfl
  unfold Turn.frames
  simp only [hloop]
  rw [upstreamOf_append, upstreamOf_append, hbefore, hsent]
  congr 1
  cases e with
  | failed timeout => simp [Turn.closing, Ending.outcome, notice, upstreamOf, dataFrame, Frame.isOwn]
  | closed =>
    have hghosts : ∀ c : Prop, ∀ [Decidable c] (n : Nat),
        upstreamOf (if c then notice "image_invented" [("count", .num n)] false else []) = [] := by
      intro c _ n
      split <;> rfl
    simp only [Turn.closing, Ending.outcome, upstreamOf_append, hghosts, List.append_nil]
    by_cases hnone : r'.finish = none
    · have hno := (hfinish.1 hnone).2
      rw [if_pos hnone, if_neg fun h => ?_]
      · rfl
      · obtain ⟨txt, hmem, hsome⟩ := h.2
        exact hsome (hno txt hmem)
    · have hstated : ∃ txt ∈ texts, finishOf serde txt ≠ none := by
        by_contra hall
        refine hnone (hfinish.2 ⟨rfl, fun txt hmem => ?_⟩)
        by_contra hsome
        exact hall ⟨txt, hmem, hsome⟩
      rw [if_neg hnone, if_pos ⟨trivial, hstated⟩]
      rfl

end Loop

/-! ## What the frames carry -/

theorem payloadOf_other (o : OtherLine) : payloadOf (lineOf o.raw) = none := by
  have hstart : lineOf o.raw <+: Utf8.lossy o.raw := trimEndMatches_isPrefix _ _
  have hsingle : '\n' ∉ lineOf o.raw := fun h =>
    Utf8.not_mem_lossy (by decide) (by decide) o.single (hstart.subset h)
  rw [payloadOf_single hsingle, if_neg fun h => o.notData (h.trans hstart)]

theorem event_eq_none {parse : List Char → Option Json} {t : List Char}
    (h : payloadOf t = none ∨ payloadOf t = some doneText) : event parse t = none := by
  rcases h with h | h <;> simp [event, h]

theorem event_json (parse : List Char → Option Json) (p : JsonText) :
    event parse (dataPrefix ++ p.text) = parse p.text := by
  simp [event, payloadOf_json, text_ne_doneText]

/-- The lines behind the payloads: `[DONE]` and what follows it. -/
def Source.lastTexts (s : Source) : List (List Char) :=
  match s.done with
  | none => []
  | some (_, after) => (dataPrefix ++ doneText) :: after.map fun l => lineOf l.1.raw

theorem texts_eq (s : Source) : s.texts = s.lines.map (·.1.text) ++ s.lastTexts := rfl

theorem payloadOf_last (s : Source) : ∀ t ∈ s.lastTexts,
    payloadOf t = none ∨ payloadOf t = some doneText := by
  intro t ht
  cases hd : s.done with
  | none => simp [Source.lastTexts, hd] at ht
  | some d =>
    simp only [Source.lastTexts, hd] at ht
    rcases List.mem_cons.1 ht with rfl | ht
    · exact Or.inr payloadOf_done
    · obtain ⟨l, -, rfl⟩ := List.mem_map.1 ht
      exact Or.inl (payloadOf_other l.1)

theorem filterMap_lineFrames (parse : List Char → Option Json) (texts : List (List Char)) :
    (lineFrames texts).filterMap (fun f => event parse f.text) = texts.filterMap (event parse) := by
  have hnil : event parse [] = none := event_eq_none (Or.inl (by decide))
  induction texts with
  | nil => rfl
  | cons t texts ih =>
    have hcons : lineFrames (t :: texts) = lineFrames [t] ++ lineFrames texts :=
      lineFrames_append [t] texts
    rw [hcons, List.filterMap_append, ih, ← List.singleton_append (l := texts),
      List.filterMap_append]
    congr 1
    by_cases ht : t = []
    · simp [lineFrames, ht, hnil]
    · have hone : lineFrames [t] = [.line t] := by simp [lineFrames, ht]
      rw [hone]
      rfl

theorem filterMap_texts (parse : List Char → Option Json) (s : Source) :
    s.texts.filterMap (event parse) = s.payloads.filterMap fun p => parse p.text := by
  have hlast : s.lastTexts.filterMap (event parse) = [] :=
    List.filterMap_eq_nil_iff.2 fun t ht => event_eq_none (payloadOf_last s t ht)
  rw [texts_eq, List.filterMap_append, hlast, List.append_nil, List.filterMap_map,
    Source.payloads, List.filterMap_filterMap]
  refine List.filterMap_congr fun l _ => ?_
  cases hl : l.1 with
  | json p => simp [hl, SourceLine.text, event_json]
  | other o => simp [hl, SourceLine.text, event_eq_none (Or.inl (payloadOf_other o))]

/-! ## The end -/

/-- What may follow a frame. -/
def Follows (f g : Frame) : Prop := f.isDone → ¬ g.isDone ∧ ¬ g.carries

theorem not_isDone_own {f : Frame} (h : f.isOwn = true) : ¬ f.isDone := by
  cases f with
  | comment c => simp [Frame.isDone, Frame.text, payloadOf_comment]
  | own p => simp [Frame.isDone, Frame.text, payloadOf_json, text_ne_doneText]
  | line | done => cases h

theorem pairwise_upstreamOf (fs : List Frame) :
    fs.Pairwise Follows ↔ (upstreamOf fs).Pairwise Follows := by
  induction fs with
  | nil => exact Iff.rfl
  | cons f fs ih =>
    cases hf : f.isOwn with
    | true =>
      have hcons : upstreamOf (f :: fs) = upstreamOf fs := by simp [upstreamOf, hf]
      rw [hcons, List.pairwise_cons, ih]
      exact ⟨fun h => h.2, fun h => ⟨fun g _ hd => absurd hd (not_isDone_own hf), h⟩⟩
    | false =>
      have hcons : upstreamOf (f :: fs) = f :: upstreamOf fs := by simp [upstreamOf, hf]
      rw [hcons, List.pairwise_cons, List.pairwise_cons, ih]
      refine and_congr_left fun _ =>
        ⟨fun h g hg => h g (List.mem_filter.1 hg).1, fun h g hg => ?_⟩
      cases hown : g.isOwn with
      | true =>
        have hno : ¬ g.carries := fun hc => absurd (hown.symm.trans hc.1) (by decide)
        exact fun _ => ⟨not_isDone_own hown, hno⟩
      | false => exact h g (List.mem_filter.2 ⟨hg, by simp [hown]⟩)

theorem pairwise_append_of_not_done {fs gs : List Frame} (h : ∀ f ∈ fs, ¬ f.isDone) :
    (fs ++ gs).Pairwise Follows ↔ gs.Pairwise Follows := by
  rw [List.pairwise_append]
  refine ⟨fun hp => hp.2.1, fun hp => ⟨?_, hp, fun f hf g _ hd => absurd hd (h f hf)⟩⟩
  exact List.pairwise_of_forall_mem_list fun f hf g _ hd => absurd hd (h f hf)

theorem isDone_done : Frame.done.isDone := payloadOf_done

theorem mem_lineFrames {texts : List (List Char)} {f : Frame} (h : f ∈ lineFrames texts) :
    ∃ t ∈ texts, f = .line t := by
  obtain ⟨t, ht, rfl⟩ := List.mem_map.1 h
  exact ⟨t, (List.mem_filter.1 ht).1, rfl⟩

theorem not_isDone_lines (s : Source) :
    ∀ f ∈ lineFrames (s.lines.map (·.1.text)), ¬ f.isDone := by
  intro f hf
  obtain ⟨t, ht, rfl⟩ := mem_lineFrames hf
  obtain ⟨l, -, rfl⟩ := List.mem_map.1 ht
  cases hl : l.1 with
  | json p => simp [Frame.isDone, Frame.text, SourceLine.text, payloadOf_json, text_ne_doneText]
  | other o => simp [Frame.isDone, Frame.text, SourceLine.text, payloadOf_other]

/-- The frames of the upstream, with a last `[DONE]` if one is added. -/
theorem pairwise_lineFrames (s : Source) (added : List Frame) (h : added = [] ∨ added = [.done]) :
    (lineFrames s.texts ++ added).Pairwise Follows ↔ s.done = none ∨ added = [] := by
  rw [texts_eq, lineFrames_append, List.append_assoc,
    pairwise_append_of_not_done (not_isDone_lines s)]
  cases hd : s.done with
  | none =>
    have hlast : lineFrames s.lastTexts = [] := by simp [Source.lastTexts, hd, lineFrames]
    rw [hlast, List.nil_append]
    rcases h with rfl | rfl <;> simp
  | some d =>
    have hlast : lineFrames s.lastTexts =
        .line (dataPrefix ++ doneText) :: lineFrames (d.2.map fun l => lineOf l.1.raw) := by
      simp only [Source.lastTexts, hd]
      rfl
    -- behind the upstream's own end there are only lines without a payload
    have hquiet : ∀ f ∈ lineFrames (d.2.map fun l => lineOf l.1.raw),
        ¬ f.isDone ∧ ¬ f.carries := by
      intro f hf
      obtain ⟨t, ht, rfl⟩ := mem_lineFrames hf
      obtain ⟨l, -, rfl⟩ := List.mem_map.1 ht
      simp [Frame.isDone, Frame.carries, Frame.text, payloadOf_other]
    have hisDone : (Frame.line (dataPrefix ++ doneText)).isDone := payloadOf_done
    rw [hlast, List.cons_append, List.pairwise_cons,
      pairwise_append_of_not_done fun f hf => (hquiet f hf).1]
    rcases h with rfl | rfl
    · rw [List.append_nil]
      exact ⟨fun _ => Or.inr rfl, fun _ => ⟨fun f hf _ => hquiet f hf, List.Pairwise.nil⟩⟩
    · constructor
      · intro hp
        have hafter := hp.1 .done (List.mem_append_right _ List.mem_cons_self) hisDone
        exact absurd payloadOf_done hafter.1
      · intro h
        rcases h with h | h <;> cases h

/-! ## The relay is transparent -/

/-- In whatever pieces the upstream's bytes arrive: the browser receives the upstream's
payloads. That there is one `[DONE]` at most and no payload behind it holds if and only
if the upstream sends none, or closes its stream in order after a line that states a
finish reason. -/
theorem relay_faithful_iff (serde parse : List Char → Option Json) (t : Turn) (s : Source)
    (e : Ending) {chunks : List (List UInt8)} (h : chunks.flatten = s.bytes) :
    Faithful parse s (t.frames serde (reader chunks e)) ↔
      s.done = none ∨ (e = .closed ∧ ∃ txt ∈ s.texts, finishOf serde txt ≠ none) := by
  have hup := @upstreamOf_frames serde t e s.texts
  rw [← reader_eq h e] at hup
  have hsingle : Single (t.frames serde (reader chunks e)) := by
    rw [single_iff, hup]
    intro f hf
    rcases List.mem_append.1 hf with hf | hf
    · obtain ⟨txt, htxt, rfl⟩ := mem_lineFrames hf
      exact newline_not_mem_texts s txt htxt
    · split at hf
      · cases hf
      · rw [List.mem_singleton.1 hf]
        decide
  have hdelivered : ∀ net : List (List UInt8),
      net.flatten = relayed (t.frames serde (reader chunks e)) →
      readSSE parse net = (t.frames serde (reader chunks e)).filterMap
        fun f => event parse f.text := by
    intro net hnet
    refine readSSE_eq parse hsingle ?_ hnet
    have hcolon : ∀ rest : List Char, (":".toList ++ rest).head? ≠ some byteOrderMark := by
      intro rest
      simp [byteOrderMark]
    exact hcolon _
  have hpayloads : (upstreamOf (t.frames serde (reader chunks e))).filterMap
      (fun f => event parse f.text) = s.payloads.filterMap fun p => parse p.text := by
    have hdone : event parse Frame.done.text = none := event_eq_none (Or.inr payloadOf_done)
    rw [hup, List.filterMap_append, filterMap_lineFrames, filterMap_texts]
    split
    · simp
    · simp [hdone]
  have hended : (t.frames serde (reader chunks e)).Pairwise Follows ↔
      s.done = none ∨ (e = .closed ∧ ∃ txt ∈ s.texts, finishOf serde txt ≠ none) := by
    rw [pairwise_upstreamOf, hup, pairwise_lineFrames _ _ (by split <;> simp)]
    refine or_congr_right ?_
    split
    · next hc => simp [hc]
    · next hc => simp [hc]
  exact ⟨fun hf => hended.1 hf.ended, fun hc => ⟨hdelivered, hpayloads, hended.2 hc⟩⟩

/-- A turn without tools and without waits. -/
def plainTurn : Turn := ⟨[], fun _ => [], fun _ => 0, []⟩

/-- The answer "é", with its finish reason. -/
def lastPayload : JsonText where
  inner := "\"choices\":[\x7b\"delta\":\x7b\"content\":\"é\"\x7d,\"finish_reason\":\"stop\"\x7d]".toList
  single := by decide

def readLast (t : List Char) : Option Json :=
  if t = lastPayload.text then
    some (.obj [("choices", .arr [.obj [("delta", .obj [("content", .str ['é'])]),
      ("finish_reason", .str "stop".toList)]])])
  else none

def lastSource : Source where
  lines := [(.json lastPayload, .crlf)]
  done := some (.lf, [])

/-- Divided inside the character. -/
theorem relay_faithful_last :
    [lastSource.bytes.take 40, lastSource.bytes.drop 40].flatten = lastSource.bytes ∧
    Faithful readLast lastSource (plainTurn.frames readLast
      (reader [lastSource.bytes.take 40, lastSource.bytes.drop 40] .closed)) := by
  have hflat : [lastSource.bytes.take 40, lastSource.bytes.drop 40].flatten = lastSource.bytes := by
    simp
  refine ⟨hflat, (relay_faithful_iff readLast readLast plainTurn lastSource .closed hflat).2
    (Or.inr ⟨rfl, dataPrefix ++ lastPayload.text, List.mem_cons_self, ?_⟩)⟩
  decide +kernel

def emptyPayload : JsonText := ⟨[], List.not_mem_nil⟩

def readEmpty (t : List Char) : Option Json :=
  if t = emptyPayload.text then some (.obj []) else none

/-- A payload without finish reason, and the end. -/
def unfinishedSource : Source where
  lines := [(.json emptyPayload, .lf)]
  done := some (.lf, [])

/-- The upstream's `[DONE]` is relayed, then the portal adds its own. -/
theorem done_sent_twice :
    plainTurn.frames readEmpty (reader [unfinishedSource.bytes] .closed) =
      [.comment .ouverture, .line "data: \x7b\x7d".toList, .line "data: [DONE]".toList,
        lengthFrame, .done] ∧
    ¬ Faithful readEmpty unfinishedSource
      (plainTurn.frames readEmpty (reader [unfinishedSource.bytes] .closed)) := by
  have hframes : plainTurn.frames readEmpty (reader [unfinishedSource.bytes] .closed) =
      [.comment .ouverture, .line "data: \x7b\x7d".toList, .line "data: [DONE]".toList,
        lengthFrame, .done] := rfl
  refine ⟨hframes, fun h => ?_⟩
  have hended := h.ended
  rw [hframes] at hended
  have htail := (List.pairwise_cons.1 (List.pairwise_cons.1 hended).2).2
  have hlast := (List.pairwise_cons.1 htail).1 .done (by simp)
  exact (hlast payloadOf_done).1 isDone_done

end Portal.Relay
