import DgxPlatform.Lib.EventStream
import DgxPlatform.Lib.Json

/-! # The answer of an MCP server

`rpc` posts one call and reads the answer. The server may send an event stream, with
notifications and requests of its own in front of the response and with a message
spread over several `data` lines. `rpc` takes the first `data` line that is JSON by
itself, whatever its id.

* `Event` is an event as the server writes it, `messages` what a stream sends;
  `messages_read` says that an event stream parser reads just that.
-/

namespace Portal.McpAnswer

open Text

inductive McpError where
  | said (message : List Char)
  | transport
deriving DecidableEq, Repr

/-- The JSON library: its parser and printer, and what is read and made of its values. -/
structure SerdeJson (V : Type) where
  fromStr : List Char → Option V
  toText : V → List Char
  str : List Char → V
  obj : List (String × V) → V
  get : V → String → Option V
  asStr : V → Option (List Char)
  /-- White space around a value is no part of it. -/
  fromStr_trim : ∀ t v, fromStr t = some v → fromStr (trim t) = some v
  fromStr_nil : fromStr [] = none

/-- What comes back over HTTP; `body` is `none` when it cannot be read. -/
structure Answer where
  status : Nat
  location : Bool
  session : Option (List Char)
  contentType : Option (List Char)
  body : Option (List Char)

def Answer.isEventStream (r : Answer) : Bool :=
  r.contentType.any fun c => contains c "text/event-stream".toList

def UNREADABLE : McpError := .said "Réponse SSE du serveur MCP illisible.".toList

/-! ## `rpc` -/

/-- A line without the first of its two end characters. -/
def stripCr (l : List Char) : List Char := if l.getLast? = some '\r' then l.dropLast else l

/-- `str::lines`. -/
def strLines (t : List Char) : List (List Char) :=
  let pieces := t.splitOn '\n'
  let last := pieces.getLastD []
  pieces.dropLast.map stripCr ++ if last = [] then [] else [last]

def dataLine (l : List Char) : Option (List Char) :=
  if "data:".toList.isPrefixOf l then some (l.drop 5) else none

section Rpc

variable {V : Type} (J : SerdeJson V)

/-- A `data` line that is JSON by itself. -/
def lineJson (d : List Char) : Option V := J.fromStr (trim d)

def firstJson (lines : List (List Char)) : Option V := (lines.filterMap dataLine).findSome? (lineJson J)

/-- The result, or the error's message. -/
def outcome (data : V) : Except McpError V :=
  match J.get data "error" with
  | some e =>
      .error (.said (((J.get e "message").map fun m => (J.asStr m).getD (J.toText m)).getD "Erreur MCP.".toList))
  | none => .ok ((J.get data "result").getD (J.obj []))

def readData (r : Answer) (text : List Char) : Except McpError V :=
  if r.isEventStream then (firstJson J (strLines text)).elim (.error UNREADABLE) .ok
  else (J.fromStr text).elim (.error (.said "Réponse du serveur MCP illisible.".toList)) .ok

def payload (id method : List Char) (params : V) : V :=
  J.obj [("jsonrpc", J.str "2.0".toList), ("id", J.str id), ("method", J.str method), ("params", params)]

/-- `rpc`: the session from now on, and the result or why not. `post` sends a payload within a
session. -/
def rpc (post : Option (List Char) → V → Except McpError Answer) (session : Option (List Char))
    (id method : List Char) (params : V) : Option (List Char) × Except McpError V :=
  match post session (payload J id method params) with
  | .error e => (session, .error e)
  | .ok r =>
      if r.status ∈ [301, 302, 303, 307, 308] ∧ r.location then
        (session, .error (.said "Le serveur MCP a répondu par une redirection, refusée.".toList))
      else if 400 ≤ r.status then
        (session,
          .error (.said ("Le serveur MCP a renvoyé une erreur (".toList ++ Nat.toDigits 10 r.status ++ ").".toList)))
      else
        ((r.session.filter fun sid => sid ≠ []).or session,
          match r.body with
          | none => .error .transport
          | some text => (readData J r text).bind (outcome J))

end Rpc

/-! ## Streams -/

/-- A line as it is sent, with its end. -/
structure Line where
  text : List Char
  crlf : Bool
  oneLine : '\r' ∉ text ∧ '\n' ∉ text

def Line.ended (l : Line) : List Char := l.text ++ if l.crlf then ['\r', '\n'] else ['\n']

/-- An event: its lines, then an empty one. -/
structure Event where
  lines : List Line
  crlf : Bool
  lines_ne : ∀ l ∈ lines, l.text ≠ []

def Event.texts (e : Event) : List (List Char) := e.lines.map Line.text

def Event.all (e : Event) : List Line := e.lines ++ [⟨[], e.crlf, by simp⟩]

def streamText (s : List Event) : List Char := (s.flatMap Event.all).flatMap Line.ended

/-- What an event sends, if it has a `data` line. -/
def Event.data (e : Event) : Option (List Char) := EventStream.blockData e.texts

/-- The values of the `data` lines. -/
def Event.values (e : Event) : List (List Char) := e.texts.filterMap EventStream.dataValue

def messages (s : List Event) : List (List Char) := s.filterMap Event.data

section Domain

variable {V : Type} (J : SerdeJson V)

/-- A notification or a request. -/
def IsCall (u : V) : Prop := (J.get u "method").isSome = true ∧ J.get u "result" = none ∧ J.get u "error" = none

/-- A response to the call with this id, and what it says. -/
inductive Replies (id v : V) : Except McpError V → Prop where
  | result {r : V} (hid : J.get v "id" = some id) (hresult : J.get v "result" = some r)
      (herror : J.get v "error" = none) : Replies id v (.ok r)
  | error {e m : V} {t : List Char} (hid : J.get v "id" = some id) (hresult : J.get v "result" = none)
      (herror : J.get v "error" = some e) (hmessage : J.get e "message" = some m) (htext : J.asStr m = some t) :
      Replies id v (.error (.said t))

/-- A stream of calls of the server and the one response. -/
def Answers (v : V) (s : List Event) : Prop :=
  ∃ before d behind, messages s = before ++ d :: behind ∧ J.fromStr d = some v ∧
    ∀ c ∈ before ++ behind, ∃ u, J.fromStr c = some u ∧ IsCall J u

/-- The streams that are read as the response `v`: by the first event that has a line of JSON. -/
inductive Picks (v : V) : List Event → Prop where
  /-- The response, on one line. -/
  | response {e : Event} {s : List Event} {d : List Char} (hone : e.values = [d]) (hv : J.fromStr d = some v) :
      Picks v (e :: s)
  /-- Another message on one line, where the response's result is empty too. -/
  | call {e : Event} {s : List Event} {d : List Char} {u : V} (hone : e.values = [d]) (hu : J.fromStr d = some u)
      (hcall : IsCall J u) (hempty : J.get v "error" = none ∧ J.get v "result" = some (J.obj [])) : Picks v (e :: s)
  /-- A part of a message, with the response's members. -/
  | part {e : Event} {s : List Event} {w : V} (hmany : e.values.length ≠ 1) (hw : firstJson J e.texts = some w)
      (hsame : outcome J w = outcome J v) : Picks v (e :: s)
  | skip {e : Event} {s : List Event} (hsilent : firstJson J e.texts = none) (hs : Picks v s) : Picks v (e :: s)
  /-- No line of JSON at all, and the response is the error that says so. -/
  | unreadable (h : outcome J v = .error UNREADABLE) : Picks v []

end Domain

/-! ## Lines -/

theorem stripCr_ended (l : Line) : stripCr (if l.crlf then l.text ++ ['\r'] else l.text) = l.text := by
  by_cases hcrlf : l.crlf = true
  · rw [if_pos hcrlf, stripCr, if_pos List.getLast?_concat, List.dropLast_concat]
  · rw [if_neg hcrlf, stripCr, if_neg]
    intro hlast
    exact l.oneLine.1 (List.mem_of_getLast? hlast)

theorem splitOn_ended (l : Line) (t : List Char) :
    (l.ended ++ t).splitOn '\n' = (if l.crlf then l.text ++ ['\r'] else l.text) :: t.splitOn '\n' := by
  unfold Line.ended
  split_ifs
  · have hn : '\n' ∉ l.text ++ ['\r'] := by
      rw [List.mem_append, not_or]
      exact ⟨l.oneLine.2, by decide⟩
    rw [← List.splitOn_append_cons_self_of_not_mem hn]
    simp
  · rw [← List.splitOn_append_cons_self_of_not_mem l.oneLine.2]
    simp

theorem strLines_ended (ls : List Line) : strLines (ls.flatMap Line.ended) = ls.map Line.text := by
  have hpieces : (ls.flatMap Line.ended).splitOn '\n' =
      ls.map (fun l => if l.crlf then l.text ++ ['\r'] else l.text) ++ [[]] := by
    induction ls with
    | nil => rfl
    | cons l ls ih =>
      rw [List.flatMap_cons, splitOn_ended, ih]
      rfl
  unfold strLines
  rw [hpieces]
  dsimp only
  rw [List.getLastD_concat, if_pos rfl, List.append_nil, List.dropLast_concat, List.map_map]
  refine List.map_congr_left fun l _ => ?_
  exact stripCr_ended l

theorem lines_ended (ls : List Line) : EventStream.lines (ls.flatMap Line.ended) = ls.map Line.text := by
  induction ls with
  | nil => rfl
  | cons l ls ih =>
    rw [List.flatMap_cons, List.map_cons, ← ih, Line.ended, List.append_assoc]
    split_ifs
    · exact EventStream.lines_crlf l.oneLine.1 l.oneLine.2
    · exact EventStream.lines_cons l.oneLine.1 l.oneLine.2

theorem texts_all (s : List Event) : (s.flatMap Event.all).map Line.text = s.flatMap fun e => e.texts ++ [[]] := by
  rw [List.map_flatMap]
  refine List.flatMap_congr fun e _ => ?_
  rw [Event.all, List.map_append]
  rfl

/-- A parser of event streams reads the messages. -/
theorem messages_read (s : List Event) :
    (EventStream.dispatch {} (EventStream.lines (streamText s))).map EventStream.Message.data = messages s := by
  rw [streamText, lines_ended, texts_all]
  induction s with
  | nil => rfl
  | cons e s ih =>
    have hne : ∀ l ∈ e.texts, l ≠ [] := by
      intro l hl
      rcases List.mem_map.1 hl with ⟨line, hline, rfl⟩
      exact e.lines_ne line hline
    rw [List.flatMap_cons, List.append_assoc, List.singleton_append, EventStream.dispatch_block hne, ih]
    unfold messages
    rw [List.filterMap_cons, Event.data]
    cases EventStream.blockData e.texts with
    | none => rfl
    | some d => rfl

/-! ## `data` lines -/

theorem isPrefixOf_data {l : List Char} (h : "data:".toList.isPrefixOf l = true) : ∃ x, l = "data:".toList ++ x := by
  rcases List.isPrefixOf_iff_prefix.1 h with ⟨x, hx⟩
  exact ⟨x, hx.symm⟩

/-- Behind the colon, a parser of event streams leaves a space out. -/
theorem field_data (x : List Char) :
    EventStream.field ("data:".toList ++ x) = ("data".toList, if x.head? = some ' ' then x.tail else x) := by
  have htake : ("data:".toList ++ x).takeWhile (fun c => c != ':') = "data".toList := by simp
  have hdrop : ("data:".toList ++ x).drop 5 = x := rfl
  unfold EventStream.field
  rw [htake]
  dsimp only
  rw [show "data".toList.length + 1 = 5 from rfl, hdrop]
  split
  · rfl
  · next hne =>
      rw [if_neg]
      intro hhead
      rcases List.head?_eq_some_iff.1 hhead with ⟨y, rfl⟩
      exact hne y rfl

theorem trim_space (x : List Char) : trim (' ' :: x) = trim x := by
  unfold trim trimMatches
  rw [List.dropWhile_cons_of_pos (by decide)]

/-- A `data` line with its value: the two readers differ in white space only. -/
theorem dataLine_some {l x : List Char} (h : dataLine l = some x) :
    ∃ v, EventStream.dataValue l = some v ∧ trim v = trim x := by
  unfold dataLine at h
  split_ifs at h with hpre
  rcases isPrefixOf_data hpre with ⟨y, rfl⟩
  rcases Option.some.inj h with rfl
  have hvalue : EventStream.dataValue ("data:".toList ++ y) = some (if y.head? = some ' ' then y.tail else y) := by
    rw [EventStream.dataValue, field_data, if_pos rfl]
  refine ⟨_, hvalue, ?_⟩
  have hdrop : ("data:".toList ++ y).drop 5 = y := rfl
  rw [hdrop]
  split_ifs with hhead
  · rcases List.head?_eq_some_iff.1 hhead with ⟨z, rfl⟩
    exact (trim_space z).symm
  · rfl

/-- A line whose field is `data`, without a colon behind it, has no value. -/
theorem dataLine_none {l v : List Char} (h : dataLine l = none) (hv : EventStream.dataValue l = some v) : v = [] := by
  unfold EventStream.dataValue at hv
  split_ifs at hv with hname
  rcases Option.some.inj hv with rfl
  have hpre : ¬ "data:".toList.isPrefixOf l = true := by
    intro hpre
    rw [dataLine, if_pos hpre] at h
    cases h
  -- else the colon would stand behind the name
  have hname' : l.takeWhile (fun c => c != ':') = "data".toList := hname
  have hsplit := List.takeWhile_append_dropWhile (p := fun c => c != ':') (l := l)
  rw [hname'] at hsplit
  have hrest : l.dropWhile (fun c => c != ':') = [] := by
    cases hdrop : l.dropWhile (fun c => c != ':') with
    | nil => rfl
    | cons c t =>
      have hcolon : c = ':' := by
        have := List.head?_dropWhile_not (fun c => c != ':') l
        rw [hdrop] at this
        simpa using this
      subst hcolon
      refine absurd ?_ hpre
      rw [← hsplit, hdrop]
      rfl
  rw [hrest, List.append_nil] at hsplit
  rw [← hsplit]
  rfl

section Pick

variable {V : Type} (J : SerdeJson V)

theorem firstJson_of_one {ls : List (List Char)} {d : List Char} {u : V}
    (hone : ls.filterMap EventStream.dataValue = [d]) (hu : J.fromStr d = some u) : firstJson J ls = some u := by
  induction ls with
  | nil => cases hone
  | cons l ls ih =>
    rw [List.filterMap_cons] at hone
    unfold firstJson at ih ⊢
    rw [List.filterMap_cons]
    cases hv : EventStream.dataValue l with
    | none =>
      rw [hv] at hone
      have hnone : dataLine l = none := by
        cases hd : dataLine l with
        | none => rfl
        | some x =>
          rcases dataLine_some hd with ⟨w, hw, -⟩
          rw [hv] at hw
          cases hw
      rw [hnone]
      exact ih hone
    | some v =>
      rw [hv] at hone
      rcases List.cons.inj hone with ⟨rfl, hrest⟩
      cases hd : dataLine l with
      | none =>
        -- a line without a value is no message
        rw [dataLine_none hd hv, J.fromStr_nil] at hu
        cases hu
      | some x =>
        rcases dataLine_some hd with ⟨w, hw, htrim⟩
        rw [hv] at hw
        rcases Option.some.inj hw with rfl
        have hline : lineJson J x = some u := by
          rw [lineJson, ← htrim]
          exact J.fromStr_trim _ u hu
        rw [List.findSome?_cons, hline]

theorem firstJson_append (ls ms : List (List Char)) :
    firstJson J (ls ++ ms) = (firstJson J ls).or (firstJson J ms) := by
  rw [firstJson, List.filterMap_append, List.findSome?_append]
  rfl

/-- What is read of a stream. -/
def picked (s : List Event) : Option V := firstJson J (s.flatMap fun e => e.texts ++ [[]])

theorem picked_cons (e : Event) (s : List Event) : picked J (e :: s) = (firstJson J e.texts).or (picked J s) := by
  have hblank : firstJson J [[]] = none := rfl
  rw [picked, List.flatMap_cons, firstJson_append, firstJson_append, hblank, Option.or_none]
  rfl

variable {J}

theorem outcome_call {u : V} (h : IsCall J u) : outcome J u = .ok (J.obj []) := by
  rw [outcome, h.2.2, h.2.1]
  rfl

theorem outcome_reply {id v : V} {reply : Except McpError V} (h : Replies J id v reply) : outcome J v = reply := by
  cases h with
  | result hid hresult herror =>
    rw [outcome, herror, hresult]
    rfl
  | error hid hresult herror hmessage htext =>
    rw [outcome, herror]
    dsimp only
    rw [hmessage, Option.map_some, Option.getD_some, htext]
    rfl

theorem result_of_empty {id v : V} {reply : Except McpError V} (h : Replies J id v reply) :
    reply = .ok (J.obj []) ↔ J.get v "error" = none ∧ J.get v "result" = some (J.obj []) := by
  cases h with
  | result hid hresult herror =>
    rw [herror, hresult]
    constructor
    · intro heq
      rcases Except.ok.inj heq with rfl
      exact ⟨rfl, rfl⟩
    · intro heq
      rw [Option.some.inj heq.2]
  | error hid hresult herror hmessage htext =>
    rw [herror]
    constructor
    · intro heq
      cases heq
    · intro heq
      cases heq.1

/-- By events: what is read has the response's outcome exactly if the stream is one of those. -/
theorem picks_iff {id v : V} {reply : Except McpError V} (hreply : Replies J id v reply) {s : List Event}
    (hs : ∀ d ∈ messages s, ∃ u, J.fromStr d = some u ∧ (u = v ∨ IsCall J u)) :
    ((picked J s).elim (.error UNREADABLE) .ok : Except McpError V).bind (outcome J) = reply ↔ Picks J v s := by
  induction s with
  | nil =>
    rw [← outcome_reply hreply]
    constructor
    · intro h
      exact .unreadable h.symm
    · intro h
      cases h with
      | unreadable h => exact h.symm
  | cons e s ih =>
    have htail : ∀ d ∈ messages s, ∃ u, J.fromStr d = some u ∧ (u = v ∨ IsCall J u) := by
      intro d hd
      refine hs d ?_
      rw [messages, List.filterMap_cons]
      cases e.data with
      | none => exact hd
      | some c => exact List.mem_cons_of_mem c hd
    have hmessage : ∀ d, e.values = [d] → ∃ u, J.fromStr d = some u ∧ (u = v ∨ IsCall J u) := by
      intro d hone
      refine hs d ?_
      have hdata : e.data = some d := by
        rw [Event.data, EventStream.blockData]
        rw [Event.values] at hone
        rw [hone, if_neg (List.cons_ne_nil _ _), List.intercalate_singleton]
      rw [messages, List.filterMap_cons, hdata]
      exact List.mem_cons_self
    rw [picked_cons]
    cases hfirst : firstJson J e.texts with
    | none =>
      rw [Option.none_or, ih htail]
      constructor
      · exact .skip hfirst
      · intro h
        cases h with
        | response hone hv =>
          rw [firstJson_of_one J hone hv] at hfirst
          cases hfirst
        | call hone hu hcall hempty =>
          rw [firstJson_of_one J hone hu] at hfirst
          cases hfirst
        | part hmany hw hsame =>
          rw [hw] at hfirst
          cases hfirst
        | skip hsilent h => exact h
    | some w =>
      have hread : ((Option.some w).elim (.error UNREADABLE) .ok : Except McpError V).bind (outcome J) =
          outcome J w := rfl
      rw [Option.some_or, hread]
      constructor
      · intro hsame
        by_cases hone : e.values.length = 1
        · rcases List.length_eq_one_iff.1 hone with ⟨d, hd⟩
          rcases hmessage d hd with ⟨u, hu, rfl | hcall⟩
          · exact .response hd hu
          · have hwu := firstJson_of_one J hd hu
            rw [hfirst] at hwu
            rcases Option.some.inj hwu with rfl
            rw [outcome_call hcall] at hsame
            exact .call hd hu hcall ((result_of_empty hreply).1 hsame.symm)
        · exact .part hone hfirst (hsame.trans (outcome_reply hreply).symm)
      · intro h
        cases h with
        | response hone hv =>
          rw [firstJson_of_one J hone hv] at hfirst
          rcases Option.some.inj hfirst with rfl
          exact outcome_reply hreply
        | call hone hu hcall hempty =>
          rw [firstJson_of_one J hone hu] at hfirst
          rcases Option.some.inj hfirst with rfl
          rw [outcome_call hcall]
          exact ((result_of_empty hreply).2 hempty).symm
        | part hmany hw hsame =>
          rw [hfirst] at hw
          rcases Option.some.inj hw with rfl
          exact hsame.trans (outcome_reply hreply)
        | skip hsilent h =>
          rw [hfirst] at hsilent
          cases hsilent

end Pick

/-- On an event stream that answers the call, `rpc` gives the result or the error of the response
exactly if the first line of JSON is the response, or reads like it. -/
theorem rpc_answers_iff {V : Type} (J : SerdeJson V) (post : Option (List Char) → V → Except McpError Answer)
    (session : Option (List Char)) (id method : List Char) (params : V) {r : Answer} {s : List Event} {v : V}
    {reply : Except McpError V} (hpost : post session (payload J id method params) = .ok r) (hstatus : r.status = 200)
    (hsse : r.isEventStream = true) (hbody : r.body = some (streamText s)) (hreply : Replies J (J.str id) v reply)
    (hstream : Answers J v s) :
    (rpc J post session id method params).2 = reply ↔ Picks J v s := by
  rcases hstream with ⟨before, d, behind, hmessages, hd, hcalls⟩
  have hs : ∀ c ∈ messages s, ∃ u, J.fromStr c = some u ∧ (u = v ∨ IsCall J u) := by
    intro c hc
    rw [hmessages] at hc
    rcases List.mem_append.1 hc with hc | hc
    · rcases hcalls c (List.mem_append_left _ hc) with ⟨u, hu, hcall⟩
      exact ⟨u, hu, Or.inr hcall⟩
    · rcases List.mem_cons.1 hc with rfl | hc
      · exact ⟨v, hd, Or.inl rfl⟩
      · rcases hcalls c (List.mem_append_right _ hc) with ⟨u, hu, hcall⟩
        exact ⟨u, hu, Or.inr hcall⟩
  have hrpc : (rpc J post session id method params).2 =
      ((picked J s).elim (.error UNREADABLE) .ok : Except McpError V).bind (outcome J) := by
    have hread : readData J r (streamText s) = (picked J s).elim (.error UNREADABLE) .ok := by
      rw [readData, if_pos hsse, streamText, strLines_ended, texts_all]
      rfl
    have hredirect : ¬ (r.status ∈ [301, 302, 303, 307, 308] ∧ r.location = true) := by
      rw [hstatus]
      rintro ⟨hmem, -⟩
      exact absurd hmem (by decide)
    have hok : ¬ 400 ≤ r.status := by
      rw [hstatus]
      decide
    rw [rpc, hpost]
    dsimp only
    rw [if_neg hredirect, if_neg hok, hbody]
    dsimp only
    rw [hread]
  rw [hrpc]
  exact picks_iff hreply hs

/-! ## Two streams -/

def progressText : List Char := "\x7b\"jsonrpc\":\"2.0\",\"method\":\"notifications/progress\"\x7d".toList

def toolsText : List Char := "\x7b\"jsonrpc\":\"2.0\",\"id\":\"7\",\"result\":\x7b\"tools\":[\"search\"]\x7d\x7d".toList

def progress : Json := .obj [("jsonrpc", .str "2.0".toList), ("method", .str "notifications/progress".toList)]

def toolsResult : Json := .obj [("tools", .arr [.str "search".toList])]

def tools : Json := .obj [("jsonrpc", .str "2.0".toList), ("id", .str "7".toList), ("result", toolsResult)]

/-- A JSON library, on these two texts. -/
def sampleJson : SerdeJson Json where
  fromStr t := [(progressText, progress), (toolsText, tools)].lookup (trim t)
  toText _ := []
  str := Json.str
  obj := Json.obj
  get v key := v.get? key
  asStr := Json.str?
  fromStr_trim t v h := by
    have htrim : trim (trim t) = trim t := trimMatches_idem _ t
    rw [htrim]
    exact h
  fromStr_nil := rfl

def sampleEvent (t : List Char) (h : '\r' ∉ t ∧ '\n' ∉ t) : Event where
  lines := [⟨"data: ".toList ++ t, false, by simpa using h⟩]
  crlf := false
  lines_ne := by simp

def toolsEvent : Event := sampleEvent toolsText (by decide)

def progressEvent : Event := sampleEvent progressText (by decide)

def samplePost (s : List Event) (_ : Option (List Char)) (_ : Json) : Except McpError Answer :=
  .ok ⟨200, false, none, some "text/event-stream".toList, some (streamText s)⟩

theorem sample_reply : Replies sampleJson (sampleJson.str "7".toList) tools (.ok toolsResult) :=
  .result rfl rfl rfl

theorem rpc_answers_sample :
    (rpc sampleJson (samplePost [toolsEvent, progressEvent]) none "7".toList "tools/list".toList (.obj [])).2 =
        .ok toolsResult ↔ Picks sampleJson tools [toolsEvent, progressEvent] :=
  rpc_answers_iff sampleJson (samplePost [toolsEvent, progressEvent]) none "7".toList "tools/list".toList (.obj [])
    rfl rfl (by decide) rfl sample_reply ⟨[], toolsText, [progressText], rfl, rfl, fun c hc =>
      ⟨progress, by rw [List.mem_singleton.1 hc]; rfl, rfl, rfl, rfl⟩⟩

/-- A progress notification in front of the response is read as an empty result. -/
theorem rpc_not_answers :
    Replies sampleJson (sampleJson.str "7".toList) tools (.ok toolsResult) ∧
      Answers sampleJson tools [progressEvent, toolsEvent] ∧
      (rpc sampleJson (samplePost [progressEvent, toolsEvent]) none "7".toList "tools/list".toList (.obj [])).2 =
        .ok (.obj []) ∧ Json.obj [] ≠ toolsResult := by
  refine ⟨sample_reply, ⟨[progressText], toolsText, [], rfl, rfl, ?_⟩, rfl, ?_⟩
  · intro c hc
    rw [List.mem_singleton.1 hc]
    exact ⟨progress, rfl, rfl, rfl, rfl⟩
  · intro h
    cases Json.obj.inj h

end Portal.McpAnswer
