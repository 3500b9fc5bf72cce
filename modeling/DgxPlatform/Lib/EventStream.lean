import DgxPlatform.Lib.Text
import DgxPlatform.Lib.Utf8

/-! # Server-sent events

The parser of an event stream as browsers have it. The bytes are UTF-8, without a
leading byte order mark; a line ends at CRLF, at LF or at CR; a line is empty, a
comment, or a field with its value, whose first space is dropped. An empty line
dispatches what the `data` fields have gathered, if anything, under the name of the
last `event` field. What stands behind the last line end is never read, nor is an
event without its empty line.

* `lines_cons`: a text without line ends, a line feed, and what follows.
* `dispatch_block`: an event, its empty line, and what follows.
* `not_mem_of_decode`: no message holds a carriage return, whatever was sent.
-/

namespace EventStream

/-- The three line ends as one. -/
def unify : List Char → List Char
  | [] => []
  | '\r' :: '\n' :: t => '\n' :: unify t
  | '\r' :: t => '\n' :: unify t
  | c :: t => c :: unify t

/-- The lines that end. -/
def lines (t : List Char) : List (List Char) := ((unify t).splitOn '\n').dropLast

/-- The name of a field and its value. -/
def field (line : List Char) : List Char × List Char :=
  let name := line.takeWhile fun c => c != ':'
  let value :=
    match line.drop (name.length + 1) with
    | ' ' :: value => value
    | value => value
  (name, value)

/-- What is dispatched. -/
structure Message where
  name : List Char
  data : List Char
deriving DecidableEq, Repr

/-- The name and the data gathered since the last empty line. The fields `id` and `retry`
change neither. -/
structure Buffer where
  name : List Char := []
  data : List Char := []
deriving DecidableEq, Repr

/-- A field. -/
def Buffer.set (b : Buffer) (name value : List Char) : Buffer :=
  if name = "event".toList then { b with name := value }
  else if name = "data".toList then { b with data := b.data ++ value ++ ['\n'] }
  else b

/-- What an empty line dispatches. -/
def Buffer.message (b : Buffer) : Message :=
  ⟨if b.name = [] then "message".toList else b.name, b.data.dropLast⟩

/-- One line. -/
def Buffer.line (b : Buffer) (line : List Char) : Buffer × List Message :=
  if line = [] then
    if b.data = [] then ({}, [])
    else ({}, [b.message])
  else if line.head? = some ':' then (b, [])
  else (b.set (field line).1 (field line).2, [])

def dispatch : Buffer → List (List Char) → List Message
  | _, [] => []
  | b, l :: ls => (b.line l).2 ++ dispatch (b.line l).1 ls

/-- A leading byte order mark is no part of the text. -/
def stripBom : List Char → List Char
  | c :: t => if c.toNat = 0xFEFF then t else c :: t
  | [] => []

/-- The messages of a stream. -/
def decode (bytes : List UInt8) : List Message :=
  dispatch {} (lines (stripBom (Utf8.lossy bytes)))

/-! ## Lines -/

variable {a t : List Char}

theorem unify_cons {c : Char} (hc : c ≠ '\r') : unify (c :: t) = c :: unify t := by
  rw [unify.eq_def]
  split
  · next h => cases h
  · next h => exact absurd (List.cons.inj h).1 hc
  · next h => exact absurd (List.cons.inj h).1 hc
  · next h =>
      obtain ⟨rfl, rfl⟩ := List.cons.inj h
      rfl

theorem unify_append (ha : '\r' ∉ a) : unify (a ++ t) = a ++ unify t := by
  induction a with
  | nil => rfl
  | cons c a ih =>
    obtain ⟨hc, ha⟩ := List.ne_and_not_mem_of_not_mem_cons ha
    rw [List.cons_append, unify_cons (Ne.symm hc), ih ha, List.cons_append]

theorem not_mem_unify (t : List Char) : '\r' ∉ unify t := by
  fun_induction unify t with
  | case1 => exact List.not_mem_nil
  | case2 t ih | case3 t _ ih =>
    rw [List.mem_cons, not_or]
    exact ⟨by decide, ih⟩
  | case4 c t _ hc ih =>
    rw [List.mem_cons, not_or]
    exact ⟨fun h => hc h.symm, ih⟩

theorem lines_cons (hr : '\r' ∉ a) (hn : '\n' ∉ a) : lines (a ++ '\n' :: t) = a :: lines t := by
  have hunify : unify (a ++ '\n' :: t) = a ++ '\n' :: unify t := by
    rw [unify_append hr, unify_cons (by decide)]
  rw [lines, hunify, List.splitOn_append_cons_self_of_not_mem hn]
  exact List.dropLast_cons_of_ne_nil (List.splitOn_ne_nil _ _)

theorem lines_crlf (hr : '\r' ∉ a) (hn : '\n' ∉ a) : lines (a ++ '\r' :: '\n' :: t) = a :: lines t := by
  have hunify : unify (a ++ '\r' :: '\n' :: t) = a ++ '\n' :: unify t := by
    rw [unify_append hr, unify]
  rw [lines, hunify, List.splitOn_append_cons_self_of_not_mem hn]
  exact List.dropLast_cons_of_ne_nil (List.splitOn_ne_nil _ _)

theorem not_mem_of_mem_lines {l : List Char} (h : l ∈ lines t) : '\r' ∉ l := by
  have hmem := List.mem_of_mem_dropLast h
  rw [List.splitOn_eq_splitOnP] at hmem
  intro hr
  exact not_mem_unify t (Text.of_mem_splitOnP hmem _ hr).1

/-! ## Messages -/

theorem field_append {name value : List Char} (hname : ':' ∉ name) :
    field (name ++ ':' :: ' ' :: value) = (name, value) := by
  have htake : (name ++ ':' :: ' ' :: value).takeWhile (fun c => c != ':') = name := by
    rw [List.takeWhile_append_of_pos fun c hc => bne_iff_ne.2 fun h : c = ':' => hname (h ▸ hc)]
    simp
  have hdrop : (name ++ ':' :: ' ' :: value).drop (name.length + 1) = ' ' :: value := by
    rw [← List.drop_drop, List.drop_left, List.drop_one, List.tail_cons]
  simp only [field, htake, hdrop]

theorem line_data (b : Buffer) (value : List Char) :
    b.line ("data: ".toList ++ value) = ({ b with data := b.data ++ value ++ ['\n'] }, []) := by
  have hfield : field ("data: ".toList ++ value) = ("data".toList, value) :=
    @field_append "data".toList value (by decide)
  unfold Buffer.line
  rw [if_neg (by simp), if_neg (by simp), hfield]
  rfl

theorem line_nil {b : Buffer} (h : b.data ≠ []) : b.line [] = ({}, [b.message]) := by
  rw [Buffer.line, if_pos rfl, if_neg h]

theorem line_comment (b : Buffer) (t : List Char) : b.line (':' :: t) = (b, []) := by
  rw [Buffer.line, if_neg (List.cons_ne_nil _ _)]
  exact if_pos rfl

theorem field_subset (line : List Char) : (field line).1 ⊆ line ∧ (field line).2 ⊆ line := by
  unfold field
  refine ⟨(List.takeWhile_prefix _).subset, ?_⟩
  have hdrop := List.drop_subset ((line.takeWhile fun c => c != ':').length + 1) line
  dsimp only
  split
  · next value hvalue =>
      rw [hvalue] at hdrop
      exact fun c hc => hdrop (List.mem_cons_of_mem _ hc)
  · exact hdrop

/-- Nothing gathered and nothing dispatched holds a carriage return. -/
theorem line_clean {b : Buffer} {line : List Char} (hb : '\r' ∉ b.data) (hl : '\r' ∉ line) :
    '\r' ∉ (b.line line).1.data ∧ ∀ m ∈ (b.line line).2, '\r' ∉ m.data := by
  unfold Buffer.line
  split_ifs
  · exact ⟨List.not_mem_nil, List.forall_mem_nil _⟩
  · refine ⟨List.not_mem_nil, List.forall_mem_singleton.2 ?_⟩
    exact fun h => hb (List.mem_of_mem_dropLast h)
  · exact ⟨hb, List.forall_mem_nil _⟩
  · refine ⟨?_, List.forall_mem_nil _⟩
    have hvalue : '\r' ∉ (field line).2 := fun h => hl ((field_subset line).2 h)
    unfold Buffer.set
    split_ifs
    · exact hb
    · simp [hb, hvalue]
    · exact hb

theorem dispatch_clean {b : Buffer} {ls : List (List Char)} (hb : '\r' ∉ b.data)
    (hls : ∀ l ∈ ls, '\r' ∉ l) : ∀ m ∈ dispatch b ls, '\r' ∉ m.data := by
  induction ls generalizing b with
  | nil => exact List.forall_mem_nil _
  | cons l ls ih =>
    rw [List.forall_mem_cons] at hls
    obtain ⟨hnext, hout⟩ := line_clean hb hls.1
    rw [dispatch, List.forall_mem_append]
    exact ⟨hout, ih hnext hls.2⟩

theorem not_mem_of_decode (bytes : List UInt8) : ∀ m ∈ decode bytes, '\r' ∉ m.data :=
  dispatch_clean List.not_mem_nil fun _ h => not_mem_of_mem_lines h

/-! ## Blocks -/

/-- The value of a `data` line. -/
def dataValue (line : List Char) : Option (List Char) :=
  if (field line).1 = "data".toList then some (field line).2 else none

/-- What the lines of an event send, if one of them is a `data` line. -/
def blockData (ls : List (List Char)) : Option (List Char) :=
  if ls.filterMap dataValue = [] then none else some (['\n'].intercalate (ls.filterMap dataValue))

variable {b : Buffer} {ls rest : List (List Char)}

theorem line_gathers {l : List Char} (hl : l ≠ []) :
    (b.line l).2 = [] ∧ (b.line l).1.data = b.data ++ (dataValue l).toList.flatMap (· ++ ['\n']) := by
  unfold Buffer.line
  rw [if_neg hl]
  by_cases hcomment : l.head? = some ':'
  · rcases List.head?_eq_some_iff.1 hcomment with ⟨t, rfl⟩
    have hname : dataValue (':' :: t) = none := if_neg (by simp [field])
    rw [if_pos hcomment, hname]
    exact ⟨rfl, (List.append_nil _).symm⟩
  · rw [if_neg hcomment]
    refine ⟨rfl, ?_⟩
    unfold Buffer.set dataValue
    by_cases hdata : (field l).1 = "data".toList
    · rw [if_neg (by rw [hdata]; decide), if_pos hdata, if_pos hdata]
      simp
    · rw [if_neg hdata, if_neg hdata]
      split_ifs
      · simp
      · simp

theorem dropLast_flatMap {vs : List (List Char)} (h : vs ≠ []) :
    (vs.flatMap (· ++ ['\n'])).dropLast = ['\n'].intercalate vs := by
  induction vs with
  | nil => exact absurd rfl h
  | cons v vs ih =>
    cases vs with
    | nil => simp
    | cons w vs =>
      have hne : (w :: vs).flatMap (· ++ ['\n']) ≠ [] := by simp
      rw [List.flatMap_cons, List.dropLast_append_of_ne_nil hne, ih (List.cons_ne_nil w vs),
        List.intercalate_cons_cons]

/-- An event is dispatched at its empty line, and nothing is left of it. -/
theorem dispatch_block (h : ∀ l ∈ ls, l ≠ []) (rest : List (List Char)) :
    (dispatch {} (ls ++ [] :: rest)).map Message.data =
      (blockData ls).toList ++ (dispatch {} rest).map Message.data := by
  -- with what is gathered already
  have hgo : ∀ vs : List (List Char), ∀ b : Buffer, b.data = vs.flatMap (· ++ ['\n']) →
      (dispatch b (ls ++ [] :: rest)).map Message.data =
        (if vs ++ ls.filterMap dataValue = [] then []
          else [['\n'].intercalate (vs ++ ls.filterMap dataValue)]) ++ (dispatch {} rest).map Message.data := by
    induction ls with
    | nil =>
      intro vs b hb
      rw [List.nil_append, dispatch, Buffer.line, if_pos rfl, List.filterMap_nil, List.append_nil]
      by_cases hvs : vs = []
      · subst hvs
        have hnil : b.data = [] := hb
        rw [if_pos hnil, if_pos rfl]
        rfl
      · have hne : b.data ≠ [] := by
          rw [hb]
          cases vs with
          | nil => exact absurd rfl hvs
          | cons v vs => simp
        rw [if_neg hne, if_neg hvs, ← dropLast_flatMap hvs, ← hb]
        rfl
    | cons l ls ih =>
      intro vs b hb
      rw [List.forall_mem_cons] at h
      rcases @line_gathers b l h.1 with ⟨hout, hdata⟩
      rw [List.cons_append, dispatch, hout, List.nil_append,
        ih h.2 (vs ++ (dataValue l).toList) _ (by rw [hdata, hb, List.flatMap_append]), List.append_assoc,
        List.filterMap_cons]
      cases dataValue l with
      | none => rfl
      | some v => rfl
  rw [hgo [] {} rfl, List.nil_append]
  unfold blockData
  split_ifs
  · rfl
  · rfl

end EventStream
