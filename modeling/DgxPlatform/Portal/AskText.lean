import DgxPlatform.Portal.AskBlocks
import DgxPlatform.Portal.JsonRepair

/-! # The questions in a text

`questionsOf` reads the questions that an object carries, and `envelope` is the text of a
questionnaire. A questionnaire that is cut has the questions whose objects are complete, and
whatever the repairs make of the object that was being written.
-/

namespace Portal.Ask

open JsonMachine
open Repair (readJson)
open Text (isJsSpace trimMatches)

def maxAskOptions : Nat := 8

def questionKey : List Char := "question".toList

def questionsKey : List Char := "questions".toList

def optionsKey : List Char := "options".toList

/-- A property of a value. -/
def get (key : List Char) : Value → Option Value
  | .obj fields => Doc.field key fields
  | _ => none

/-- A number is false if it is zero. -/
def truthy : Value → Bool
  | .null => false
  | .bool b => b
  | .num text => (text.takeWhile fun c => c ≠ 'e' && c ≠ 'E').any fun c => c.isDigit && c ≠ '0'
  | .str s => s ≠ []
  | .arr _ => true
  | .obj _ => true

def trim (t : List Char) : List Char := trimMatches isJsSpace t

/-- A text that is not blank, trimmed. -/
def optionOf : Value → Option (List Char)
  | .str o => if trim o = [] then none else some (trim o)
  | _ => none

/-- One item of the list; there are no properties of `null`. -/
def askOf : Value → Option AskQ
  | .null => none
  | q =>
      some
        { question := match get questionKey q with
            | some (.str s) => trim s
            | _ => []
          options := match get optionsKey q with
            | some (.arr xs) => (xs.filterMap optionOf).take maxAskOptions
            | _ => [] }

/-- A question with something to choose from. -/
def AskQ.Asks (q : AskQ) : Prop := q.question ≠ [] ∧ 1 ≤ q.options.length

instance (q : AskQ) : Decidable q.Asks := inferInstanceAs (Decidable (_ ∧ _))

/-- The list of what may be questions. -/
def askItems (raw : Value) : List Value :=
  match get questionsKey raw with
  | some (.arr xs) => xs
  | _ => if (get questionKey raw).any truthy then [raw] else []

/-- `questionsOf`, unless it throws. -/
def questionsOf (body : List Char) : Option (List AskQ) :=
  match readJson body with
  | none => some []
  | some raw => ((askItems raw).mapM askOf).map fun qs => qs.filter fun q => decide q.Asks

/-! ## A questionnaire as a text -/

section Questionnaire

-- how each character of a text is written
variable (spell : Char → List Char)

def literal (s : List Char) : List Char := JsonText.quoted (s.flatMap spell)

def commaSeparated : List (List Char) → List Char
  | [] => []
  | x :: xs => x ++ xs.flatMap fun y => ',' :: y

/-- The object of a question, between its braces. -/
def fieldsText (q : AskQ) : List Char :=
  "\"question\":".toList ++ (literal spell q.question ++
    (",\"options\":[".toList ++ (commaSeparated (q.options.map (literal spell)) ++ [']'])))

def objectText (q : AskQ) : List Char := '\x7b' :: (fieldsText spell q ++ ['\x7d'])

/-- A questionnaire behind its brace, up to the end of its last question. -/
def upTo (qs : List AskQ) : List Char :=
  "\"questions\":[".toList ++ commaSeparated (qs.map (objectText spell))

def envelope (qs : List AskQ) : List Char := '\x7b' :: (upTo spell qs ++ "]\x7d".toList)

/-- The value of the object. -/
def AskQ.doc (q : AskQ) : Value :=
  .obj [(questionKey, .str q.question), (optionsKey, .arr (q.options.map Doc.str))]

def AskQ.trimmed (q : AskQ) : AskQ := ⟨trim q.question, q.options.map trim⟩

end Questionnaire

/-! ## Reading it -/

variable {P : State → Prop} {s s' s'' : State} {t t' : List Char}

/-- The run through a text, with a property of all the states it comes to. -/
structure Through (P : State → Prop) (s : State) (t : List Char) (s' : State) : Prop where
  run_eq : run s t = some s'
  all : ∀ a, a <+: t → ∃ r, run s a = some r ∧ P r

theorem Through.nil (hs : P s) : Through P s [] s := by
  refine ⟨rfl, ?_⟩
  intro a ha
  rw [List.prefix_nil.1 ha]
  exact ⟨s, rfl, hs⟩

theorem Through.append (h : Through P s t s') (h' : Through P s' t' s'') : Through P s (t ++ t') s'' := by
  refine ⟨?_, ?_⟩
  · rw [run_append, h.run_eq]
    exact h'.run_eq
  · intro a ha
    rcases prefix_append_cases ha with ha | ⟨b, rfl, hb⟩
    · exact h.all a ha
    · obtain ⟨r, hr, hP⟩ := h'.all b hb
      exact ⟨r, by rw [run_append, h.run_eq]; exact hr, hP⟩

theorem Through.cons {c : Char} (hs : P s) (hstep : step s c = some s') (h : Through P s' t s'') :
    Through P s (c :: t) s'' := by
  refine ⟨?_, ?_⟩
  · rw [run_cons, hstep]
    exact h.run_eq
  · intro a ha
    rcases List.prefix_cons_iff.1 ha with rfl | ⟨b, rfl, hb⟩
    · exact ⟨s, rfl, hs⟩
    · obtain ⟨r, hr, hP⟩ := h.all b hb
      exact ⟨r, by rw [run_cons, hstep]; exact hr, hP⟩

theorem Through.take (h : Through P s t s') {a : List Char} (ha : a <+: t) : ∃ r, Through P s a r := by
  obtain ⟨r, hr, -⟩ := h.all a ha
  exact ⟨r, hr, fun b hb => h.all b (hb.trans ha)⟩

theorem Through.imp {Q : State → Prop} (h : Through P s t s') (hPQ : ∀ s, P s → Q s) : Through Q s t s' := by
  refine ⟨h.run_eq, fun a ha => ?_⟩
  obtain ⟨r, hr, hP⟩ := h.all a ha
  exact ⟨r, hr, hPQ r hP⟩

theorem Through.last (h : Through P s t s') : P s' := by
  obtain ⟨r, hr, hP⟩ := h.all t List.prefix_rfl
  rw [h.run_eq] at hr
  rw [Option.some.inj hr]
  exact hP

theorem Through.open_ (h : Through P s t s') (hP : ∀ s, P s → s.frames ≠ []) : Repair.Open s t := by
  rintro a b r rfl hr
  obtain ⟨r', hr', hPr⟩ := h.all a (List.prefix_append _ _)
  rw [hr] at hr'
  rw [Option.some.inj hr']
  exact hP r' hPr

/-- The states that stand in the object of a question. -/
def Asking (s : State) : Prop :=
  ∃ fs fields key, s.frames = fs ++ [.obj fields key] ∧ key ≠ questionsKey ∧ ∀ f ∈ fields, f.1 ≠ questionsKey

theorem Asking.frames_ne (h : Asking s) : s.frames ≠ [] := by
  obtain ⟨fs, fields, key, hframes, -⟩ := h
  rw [hframes]
  exact List.append_ne_nil_of_right_ne_nil fs (List.cons_ne_nil _ _)

variable {fields : List (List Char × Value)} {key : List Char}

/-- What the text of the object of a question gives, wherever it is cut. -/
theorem Asking.obj {m : Mode} (fs : List Frame)
    (hkey : key ≠ questionsKey) (hfields : ∀ f ∈ fields, f.1 ≠ questionsKey) :
    Asking ⟨fs ++ [.obj fields key], m⟩ := ⟨fs, fields, key, rfl, hkey, hfields⟩

theorem mem_setField {v : Value} {f : List Char × Value}
    (h : f ∈ setField key v fields) : f.1 = key ∨ f ∈ fields := by
  induction fields with
  | nil => exact .inl (congrArg Prod.fst (List.mem_singleton.1 h))
  | cons g fields ih =>
    obtain ⟨k, x⟩ := g
    rw [setField] at h
    split_ifs at h with hk
    · rcases List.mem_cons.1 h with rfl | hmem
      · exact .inl hk
      · exact .inr (List.mem_cons_of_mem _ hmem)
    · rcases List.mem_cons.1 h with rfl | hmem
      · exact .inr List.mem_cons_self
      · exact (ih hmem).imp_right (List.mem_cons_of_mem _)

theorem field_eq_none (h : ∀ f ∈ fields, f.1 ≠ key) : Doc.field key fields = none := by
  induction fields with
  | nil => rfl
  | cons f fields ih =>
    rw [List.forall_mem_cons] at h
    rw [Doc.field, if_neg h.1]
    exact ih h.2

theorem top_obj {gs : List Frame} {m : Mode} {v : Value} (h : State.top ⟨.obj fields key :: gs, m⟩ = some v) :
    v = .obj fields ∨ ∃ x, v = .obj (setField key x fields) := by
  cases m with
  | after => exact .inl (Option.some.inj h).symm
  | first => exact .inl (Option.some.inj h).symm
  | str isKey text esc =>
    cases isKey <;> cases esc <;> first
      | exact .inr ⟨_, (Option.some.inj h).symm⟩
      | cases h
  | num n text =>
    dsimp only [State.top] at h
    split_ifs at h
    exact .inr ⟨_, (Option.some.inj h).symm⟩
  | _ => cases h

/-- Closed where it is cut, it is an object without a list of questions. -/
theorem Asking.closed_eq (h : Asking s) {d : Value} (hd : s.closed = some d) :
    ∃ fields, d = .obj fields ∧ Doc.field questionsKey fields = none := by
  obtain ⟨fs, fields, key, hframes, hkey, hfields⟩ := h
  have hset : ∀ v, Doc.field questionsKey (setField key v fields) = none := by
    intro v
    refine field_eq_none fun f hf => ?_
    rcases mem_setField hf with hf | hf
    · rw [hf]
      exact hkey
    · exact hfields f hf
  obtain ⟨frames, m⟩ := s
  obtain rfl : frames = fs ++ [.obj fields key] := hframes
  cases fs with
  | nil =>
    rw [List.nil_append, JsonMachine.closed_eq] at hd
    obtain ⟨v, hv, rfl⟩ := Option.map_eq_some_iff.1 hd
    rcases top_obj hv with rfl | ⟨x, rfl⟩
    · exact ⟨fields, rfl, field_eq_none hfields⟩
    · exact ⟨_, rfl, hset x⟩
  | cons f fs =>
    rw [List.cons_append, JsonMachine.closed_eq] at hd
    obtain ⟨v, -, rfl⟩ := Option.map_eq_some_iff.1 hd
    rw [wrap_append]
    exact ⟨_, rfl, hset _⟩

theorem asking_first (m : Mode) : Asking ⟨[.obj [] []], m⟩ := .obj [] (by decide) (List.forall_mem_nil _)

theorem asking_question (m : Mode) : Asking ⟨[.obj [] questionKey], m⟩ := .obj [] (by decide) (List.forall_mem_nil _)

theorem questionKey_ne : questionKey ≠ questionsKey := by decide

theorem asking_asked (x : Value) (m : Mode) : Asking ⟨[.obj [(questionKey, x)] questionKey], m⟩ :=
  .obj [] questionKey_ne (List.forall_mem_singleton.2 questionKey_ne)

theorem asking_optionsKey (x : Value) (m : Mode) : Asking ⟨[.obj [(questionKey, x)] optionsKey], m⟩ :=
  .obj [] (by decide) (List.forall_mem_singleton.2 questionKey_ne)

theorem asking_options (x : Value) (xs : List Value) (m : Mode) :
    Asking ⟨[.arr xs, .obj [(questionKey, x)] optionsKey], m⟩ :=
  .obj [.arr xs] (by decide) (List.forall_mem_singleton.2 questionKey_ne)

theorem asking_all (x y : Value) (m : Mode) : Asking ⟨[.obj [(questionKey, x), (optionsKey, y)] optionsKey], m⟩ := by
  refine .obj [] (by decide) ?_
  rw [List.forall_mem_cons]
  exact ⟨questionKey_ne, List.forall_mem_singleton.2 (show optionsKey ≠ questionsKey by decide)⟩

theorem through_key : Through Asking Repair.opened "\"question\":".toList ⟨[.obj [] questionKey], .value⟩ := by
  show Through Asking _ ['"', 'q', 'u', 'e', 's', 't', 'i', 'o', 'n', '"', ':'] _
  iterate 10 refine .cons (asking_first _) rfl ?_
  exact .cons (asking_question _) rfl (.nil (asking_question _))

theorem through_optionsKey (x : Value) :
    Through Asking ⟨[.obj [(questionKey, x)] questionKey], .after⟩ ",\"options\":[".toList
      ⟨[.arr [], .obj [(questionKey, x)] optionsKey], .item⟩ := by
  show Through Asking _ [',', '"', 'o', 'p', 't', 'i', 'o', 'n', 's', '"', ':', '['] _
  iterate 10 refine .cons (asking_asked _ _) rfl ?_
  refine .cons (asking_optionsKey _ _) rfl ?_
  exact .cons (asking_optionsKey _ _) rfl (.nil (asking_options _ _ _))

/-! ## The states between the questions -/

variable {spell : Char → List Char}

/-- What stands between the questions. -/
def between (qs : List AskQ) : List Char := if qs = [] then [] else [',']

theorem upTo_concat (qs : List AskQ) (q : AskQ) :
    upTo spell (qs ++ [q]) = upTo spell qs ++ between qs ++ objectText spell q := by
  unfold upTo between
  cases qs with
  | nil => rw [List.nil_append, List.map_nil, if_pos rfl, List.append_nil, List.map_singleton, commaSeparated,
      commaSeparated, List.append_nil, List.flatMap_nil, List.append_nil]
  | cons q' qs =>
    rw [if_neg (List.cons_ne_nil _ _), List.cons_append, List.map_cons, List.map_append, List.map_singleton,
      List.map_cons, commaSeparated, commaSeparated, List.flatMap_append, List.flatMap_singleton]
    simp only [List.append_assoc, List.singleton_append]

/-- The open questionnaire and its list. -/
def around (qs : List AskQ) : List Frame := [.arr (qs.map AskQ.doc), .obj [] questionsKey]

/-- An object is open. -/
def Live (s : State) : Prop := '\x7d' ∈ s.closers

theorem Live.frames_ne (h : Live s) : s.frames ≠ [] := by
  intro hnil
  rw [Live, State.closers, hnil] at h
  exact absurd h List.not_mem_nil

theorem live_obj (fs : List Frame) (fields : List (List Char × Value)) (key : List Char) (gs : List Frame) (m : Mode) :
    Live ⟨fs ++ .obj fields key :: gs, m⟩ :=
  List.mem_map_of_mem (f := Frame.closer) (List.mem_append_right fs List.mem_cons_self)

theorem Asking.live (h : Asking s) : Live s := by
  obtain ⟨fs, fields, key, hframes, -⟩ := h
  obtain ⟨frames, m⟩ := s
  obtain rfl : frames = fs ++ [.obj fields key] := hframes
  exact live_obj fs fields key [] m

theorem live_around (qs : List AskQ) (m : Mode) : Live ⟨around qs, m⟩ :=
  live_obj [.arr (qs.map AskQ.doc)] [] questionsKey [] m

theorem Through.over {K : List Frame} (h : Through P s t s') (hP : ∀ s, P s → Live s) :
    Through Live (s.over K) t (s'.over K) := by
  have hs : Live s := by
    obtain ⟨r, hr, hPr⟩ := h.all [] List.nil_prefix
    rw [Option.some.inj hr]
    exact hP r hPr
  have hopen := h.open_ fun s hPs => (hP s hPs).frames_ne
  refine ⟨?_, fun a ha => ?_⟩
  · rw [run_over hs.frames_ne fun a b r ht _ hr => hopen a b r ht hr, h.run_eq]
    rfl
  · obtain ⟨r, hr, hPr⟩ := h.all a ha
    obtain ⟨b, hb⟩ := ha
    refine ⟨r.over K, ?_, ?_⟩
    · rw [run_over hs.frames_ne fun a' b' r' ht _ hr' =>
        hopen a' (b' ++ b) r' (by rw [← hb, ht, List.append_assoc]) hr', hr]
      rfl
    · have hlive := hP r hPr
      obtain ⟨fs, m⟩ := r
      obtain ⟨f, gs, rfl⟩ := List.exists_cons_of_ne_nil hlive.frames_ne
      rw [Live, over_cons, State.closers, ← List.cons_append, List.map_append]
      exact List.mem_append_left _ hlive

/-- The state between two questions. -/
def waiting (qs : List AskQ) : State := ⟨around qs, if qs = [] then .item else .after⟩

theorem through_between (qs : List AskQ) : ∃ m, Through Live (waiting qs) (between qs) ⟨around qs, m⟩ ∧
      step ⟨around qs, m⟩ '\x7b' = some (Repair.opened.over (around qs)) := by
  unfold waiting between
  split_ifs
  · exact ⟨.item, .nil (live_around _ _), rfl⟩
  · exact ⟨.value, .cons (live_around _ _) rfl (.nil (live_around _ _)), rfl⟩

variable {qs : List AskQ}

theorem through_comma (hne : qs ≠ []) : Through Live (waiting qs) [','] ⟨around qs, .value⟩ := by
  rw [waiting, if_neg hne]
  exact .cons (live_around _ _) rfl (.nil (live_around _ _))

theorem through_bracket (qs : List AskQ) :
    Through Live (waiting qs) [']'] ⟨[.obj [(questionsKey, .arr (qs.map AskQ.doc))] questionsKey], .after⟩ := by
  unfold waiting
  split_ifs <;> exact .cons (live_around _ _) rfl (.nil (live_obj [] _ _ [] _))

/-- A questionnaire that is cut behind a question ends with a bracket. -/
theorem exists_upTo (qs : List AskQ) : ∃ a c, upTo spell qs = a ++ [c] ∧ isJsSpace c = false ∧ c ≠ ',' := by
  induction qs using List.reverseRecOn with
  | nil => exact ⟨"\"questions\":".toList, '[', rfl, by decide, by decide⟩
  | append_singleton qs q _ =>
    refine ⟨upTo spell qs ++ between qs ++ '\x7b' :: fieldsText spell q, '\x7d', ?_, by decide, by decide⟩
    rw [upTo_concat, objectText, List.append_assoc _ _ ['\x7d'], List.cons_append]

/-- The questionnaire with these questions. -/
def whole (qs : List AskQ) : Value := .obj [(questionsKey, .arr (qs.map AskQ.doc))]

theorem closed_waiting (qs : List AskQ) : (waiting qs).closed = some (whole qs) := by
  unfold waiting around
  rw [JsonMachine.closed_eq]
  split_ifs <;> rfl

section Written

variable (hspell : ∀ c, JsonText.WrittenChar c (spell c))

include hspell

theorem through_literal {fs : List Frame} (hP : ∀ m, P ⟨fs, m⟩) (o : List Char) (hgive : P (give (.str o) fs)) :
    Through P ⟨fs, .value⟩ (literal spell o) (give (.str o) fs) := by
  refine ⟨run_literal hspell o, fun a ha => ?_⟩
  rcases eq_or_ne a [] with rfl | hne
  · exact ⟨_, rfl, hP _⟩
  · rcases eq_or_ne a (literal spell o) with rfl | hwhole
    · exact ⟨_, run_literal hspell o, hgive⟩
    · obtain ⟨text, esc, hrun⟩ := within_literal hspell ha hne hwhole
      exact ⟨_, hrun, hP _⟩

theorem through_more {fs : List Frame} (hP : ∀ xs m, P ⟨.arr xs :: fs, m⟩) (xs : List Value) (os : List (List Char)) :
    Through P ⟨.arr xs :: fs, .after⟩ ((os.map (literal spell)).flatMap fun y => ',' :: y)
      ⟨.arr (xs ++ os.map Doc.str) :: fs, .after⟩ := by
  induction os generalizing xs with
  | nil =>
    rw [List.map_nil, List.flatMap_nil, List.map_nil, List.append_nil]
    exact .nil (hP _ _)
  | cons o os ih =>
    rw [List.map_cons, List.flatMap_cons, List.map_cons]
    have hstep : step ⟨.arr xs :: fs, .after⟩ ',' = some ⟨.arr xs :: fs, .value⟩ := rfl
    have hfirst := (through_literal hspell (hP xs) o (hP _ _)).cons (hP _ _) hstep
    have hrest := ih (xs ++ [.str o])
    rw [List.append_assoc, List.singleton_append] at hrest
    exact hfirst.append hrest

theorem through_items {fs : List Frame} (hP : ∀ xs m, P ⟨.arr xs :: fs, m⟩) {os : List (List Char)} (hne : os ≠ []) :
    Through P ⟨.arr [] :: fs, .item⟩ (commaSeparated (os.map (literal spell)))
      ⟨.arr (os.map Doc.str) :: fs, .after⟩ := by
  obtain ⟨o, os, rfl⟩ := List.exists_cons_of_ne_nil hne
  have hfirst : Through P ⟨.arr [] :: fs, .item⟩ (literal spell o) ⟨.arr [.str o] :: fs, .after⟩ := by
    refine ⟨?_, fun a ha => ?_⟩
    · exact (through_literal hspell (hP []) o (hP _ _)).run_eq
    · rcases List.prefix_cons_iff.1 ha with rfl | ⟨b, rfl, hb⟩
      · exact ⟨_, rfl, hP _ _⟩
      · exact (through_literal hspell (hP []) o (hP _ _)).all _ ha
  exact hfirst.append (through_more hspell hP [.str o] os)

theorem through_fields {q : AskQ} (hq : q.options ≠ []) : Through Asking Repair.opened (fieldsText spell q)
      ⟨[.obj [(questionKey, .str q.question), (optionsKey, .arr (q.options.map Doc.str))] optionsKey], .after⟩ := by
  have hquestion := through_literal hspell asking_question q.question (asking_asked _ _)
  have hitems := through_items hspell (asking_options (.str q.question)) hq
  have hend : Through Asking ⟨[.arr (q.options.map Doc.str), .obj [(questionKey, .str q.question)] optionsKey], .after⟩
      [']'] ⟨[.obj [(questionKey, .str q.question), (optionsKey, .arr (q.options.map Doc.str))] optionsKey], .after⟩ :=
    .cons (asking_options _ _ _) rfl (.nil (asking_all _ _ _))
  exact through_key.append (hquestion.append ((through_optionsKey _).append (hitems.append hend)))

/-! ## The objects of a questionnaire -/

theorem through_objectText {q : AskQ} (hq : q.options ≠ []) (qs : List AskQ) {m : Mode}
    (hm : step ⟨around qs, m⟩ '\x7b' = some (Repair.opened.over (around qs))) :
    Through Live ⟨around qs, m⟩ (objectText spell q) ⟨around (qs ++ [q]), .after⟩ := by
  have hfields := (through_fields hspell hq).over (K := around qs) fun _ => Asking.live
  have haround : around (qs ++ [q]) = [.arr (qs.map AskQ.doc ++ [q.doc]), .obj [] questionsKey] := by
    rw [around, List.map_append]
    rfl
  have hend : Through Live (State.over (around qs)
      ⟨[.obj [(questionKey, .str q.question), (optionsKey, .arr (q.options.map Doc.str))] optionsKey], .after⟩)
      ['\x7d'] ⟨around (qs ++ [q]), .after⟩ := by
    refine .cons (live_obj [] _ _ (around qs) _) ?_ (.nil (live_around _ _))
    rw [haround]
    rfl
  exact .cons (live_around _ _) hm (hfields.append hend)

theorem through_upTo {qs : List AskQ} (hqs : ∀ q ∈ qs, q.options ≠ []) :
    Through Live Repair.opened (upTo spell qs) (waiting qs) := by
  induction qs using List.reverseRecOn with
  | nil =>
    show Through Live _ ['"', 'q', 'u', 'e', 's', 't', 'i', 'o', 'n', 's', '"', ':', '['] _
    iterate 13 refine .cons (live_obj [] _ _ [] _) rfl ?_
    exact .nil (live_around [] _)
  | append_singleton qs q ih =>
    have hfirst := ih fun q' hq' => hqs q' (List.mem_append_left _ hq')
    obtain ⟨m, hbetween, hm⟩ := through_between qs
    have hq := hqs q (List.mem_append_right _ (List.mem_singleton_self q))
    have hend : waiting (qs ++ [q]) = ⟨around (qs ++ [q]), .after⟩ := by
      rw [waiting, if_neg (List.append_ne_nil_of_right_ne_nil _ (List.cons_ne_nil _ _))]
    rw [upTo_concat, hend]
    exact (hfirst.append hbetween).append (through_objectText hspell hq qs hm)

/-! ## A questionnaire that is cut in a question -/

theorem through_inside {qs : List AskQ} (hqs : ∀ q ∈ qs, q.options ≠ []) {u : List Char} {s : State}
    (h : Through Asking Repair.opened u s) :
    Through Live Repair.opened (upTo spell qs ++ between qs ++ '\x7b' :: u) (s.over (around qs)) := by
  obtain ⟨m, hbetween, hm⟩ := through_between qs
  exact ((through_upTo hspell hqs).append hbetween).append
    ((h.over fun _ => Asking.live).cons (live_around _ _) hm)

/-- What is left of a question and of the questionnaire around it. -/
theorem readJson_object {q : AskQ} (hq : q.options ≠ []) {u : List Char} (hu : u <+: fieldsText spell q) :
    ∃ s1, Asking s1 ∧ readJson ('\x7b' :: u) = s1.closed ∧
      ∀ qs : List AskQ, (∀ q ∈ qs, q.options ≠ []) →
        readJson ('\x7b' :: (upTo spell qs ++ between qs ++ '\x7b' :: u)) =
          s1.closed.map fun v => wrap v (around qs) := by
  have hfields := through_fields hspell hq
  obtain ⟨s, hs⟩ := hfields.take hu
  obtain ⟨s1, hs1, hlive1, hread⟩ := Repair.readJson_cut hs.run_eq (hs.open_ fun _ => Asking.frames_ne)
  have hdrop : Repair.dropComma u <+: fieldsText spell q := by
    refine List.IsPrefix.trans ?_ hu
    rcases Repair.dropComma_cases u with ⟨a, ws, rfl, -, hdropped⟩ | ⟨hsame, -⟩
    · rw [hdropped]
      exact List.prefix_append _ _
    · rw [hsame]
  have hkept : Through Asking Repair.opened (Repair.dropComma u) s1 := by
    obtain ⟨r, hr⟩ := hfields.take hdrop
    have heq := hs1.symm.trans hr.run_eq
    rw [Option.some.inj heq]
    exact hr
  have hasking : Asking s1 := hkept.last
  refine ⟨s1, hasking, hread, fun qs hqs => ?_⟩
  -- the same text, in the questionnaire
  have hwhole := through_inside hspell hqs hs
  have hwhole1 := through_inside hspell hqs hkept
  obtain ⟨s2, hs2, -, hread2⟩ := Repair.readJson_cut hwhole.run_eq (hwhole.open_ fun _ => Live.frames_ne)
  rw [Repair.dropComma_append, hwhole1.run_eq] at hs2
  rw [hread2, ← Option.some.inj hs2]
  obtain ⟨fs, m1⟩ := s1
  obtain ⟨f, gs, rfl⟩ := List.exists_cons_of_ne_nil hlive1
  exact closed_over

theorem readJson_upTo {qs : List AskQ} (hqs : ∀ q ∈ qs, q.options ≠ []) :
    readJson ('\x7b' :: upTo spell qs) = some (whole qs) := by
  obtain ⟨a, c, hend, hc, hne⟩ := @exists_upTo spell qs
  have hthrough := through_upTo hspell hqs
  obtain ⟨s1, hs1, -, hread⟩ := Repair.readJson_cut hthrough.run_eq (hthrough.open_ fun _ => Live.frames_ne)
  have hdrop : Repair.dropComma (upTo spell qs) = upTo spell qs := by
    rw [hend, Repair.dropComma_concat a hc, if_neg hne]
  rw [hdrop, hthrough.run_eq] at hs1
  rw [hread, ← Option.some.inj hs1, closed_waiting]

theorem readJson_comma {qs : List AskQ} (hne : qs ≠ []) (hqs : ∀ q ∈ qs, q.options ≠ []) :
    readJson ('\x7b' :: (upTo spell qs ++ [','])) = some (whole qs) := by
  have hupTo := through_upTo hspell hqs
  have hthrough := hupTo.append (through_comma hne)
  obtain ⟨s1, hs1, -, hread⟩ := Repair.readJson_cut hthrough.run_eq (hthrough.open_ fun _ => Live.frames_ne)
  rw [Repair.dropComma_concat _ (by decide), if_pos rfl, hupTo.run_eq] at hs1
  rw [hread, ← Option.some.inj hs1, closed_waiting]

theorem readJson_bracket {qs : List AskQ} (hqs : ∀ q ∈ qs, q.options ≠ []) :
    readJson ('\x7b' :: (upTo spell qs ++ [']'])) = some (whole qs) := by
  have hthrough := (through_upTo hspell hqs).append (through_bracket qs)
  obtain ⟨s1, hs1, -, hread⟩ := Repair.readJson_cut hthrough.run_eq (hthrough.open_ fun _ => Live.frames_ne)
  rw [Repair.dropComma_concat _ (by decide), if_neg (by decide), hthrough.run_eq] at hs1
  rw [hread, ← Option.some.inj hs1, JsonMachine.closed_eq]
  rfl

theorem readJson_envelope {qs : List AskQ} (hqs : ∀ q ∈ qs, q.options ≠ []) :
    readJson (envelope spell qs) = some (whole qs) := by
  have hend : run (waiting qs) "]\x7d".toList = some ⟨[], .done (whole qs)⟩ := by
    unfold waiting
    split_ifs <;> rfl
  refine Repair.readJson_of_parse ?_
  rw [parse, envelope, Repair.run_start, run_append, (through_upTo hspell hqs).run_eq, Option.bind_some, hend]
  rfl

theorem readJson_objectText {q : AskQ} (hq : q.options ≠ []) : readJson (objectText spell q) = some q.doc := by
  refine Repair.readJson_of_parse ?_
  rw [parse, objectText, Repair.run_start, run_append, (through_fields hspell hq).run_eq]
  rfl

end Written

/-! ## The questions of these values -/

/-- A question that is asked as it is: not blank, and with a few options that are not blank. -/
structure AskQ.Fits (q : AskQ) : Prop where
  question : trim q.question ≠ []
  pos : 1 ≤ q.options.length
  le : q.options.length ≤ maxAskOptions
  options : ∀ o ∈ q.options, trim o ≠ []

variable {q : AskQ}

theorem AskQ.Fits.options_ne (h : q.Fits) : q.options ≠ [] := List.length_pos_iff.1 h.pos

theorem AskQ.Fits.asks (h : q.Fits) : q.trimmed.Asks :=
  ⟨h.question, by rw [AskQ.trimmed, List.length_map]; exact h.pos⟩

theorem filterMap_optionOf {os : List (List Char)} (h : ∀ o ∈ os, trim o ≠ []) :
    (os.map Doc.str).filterMap optionOf = os.map trim := by
  induction os with
  | nil => rfl
  | cons o os ih =>
    rw [List.forall_mem_cons] at h
    have hoption : optionOf (.str o) = some (trim o) := if_neg h.1
    rw [List.map_cons, List.filterMap_cons_some hoption, ih h.2, List.map_cons]

theorem askOf_doc (h : q.Fits) : askOf q.doc = some q.trimmed := by
  have htake : ((q.options.map Doc.str).filterMap optionOf).take maxAskOptions = q.options.map trim := by
    rw [filterMap_optionOf h.options, List.take_of_length_le]
    rw [List.length_map]
    exact h.le
  exact congrArg (fun os => some (AskQ.mk (trim q.question) os)) htake

theorem mapM_askOf (h : ∀ q ∈ qs, q.Fits) : (qs.map AskQ.doc).mapM askOf = some (qs.map AskQ.trimmed) := by
  induction qs with
  | nil => rfl
  | cons q qs ih =>
    rw [List.forall_mem_cons] at h
    rw [List.map_cons, List.mapM_cons, askOf_doc h.1, ih h.2]
    rfl

theorem filter_asks (h : ∀ q ∈ qs, q.Fits) :
    (qs.map AskQ.trimmed).filter (fun q => decide q.Asks) = qs.map AskQ.trimmed := by
  rw [List.filter_eq_self]
  intro q hq
  obtain ⟨q', hq', rfl⟩ := List.mem_map.1 hq
  exact decide_eq_true (h q' hq').asks

theorem questionsOf_whole {body : List Char} (h : ∀ q ∈ qs, q.Fits)
    (hread : readJson body = some (whole qs)) : questionsOf body = some (qs.map AskQ.trimmed) := by
  have hitems : askItems (whole qs) = qs.map AskQ.doc := rfl
  unfold questionsOf
  rw [hread]
  dsimp only
  rw [hitems, mapM_askOf h, Option.map_some, filter_asks h]

theorem questionsOf_doc {body : List Char} (h : q.Fits) (hread : readJson body = some q.doc) :
    questionsOf body = some [q.trimmed] := by
  have hne : q.question ≠ [] := by
    intro hnil
    apply h.question
    rw [hnil]
    rfl
  have hitems : askItems q.doc = [q.doc] := by
    have htruthy : truthy (.str q.question) = true := decide_eq_true hne
    exact if_pos htruthy
  have hmap := mapM_askOf (List.forall_mem_singleton.2 h)
  have hfilter := filter_asks (List.forall_mem_singleton.2 h)
  rw [List.map_singleton] at hmap
  unfold questionsOf
  rw [hread]
  dsimp only
  rw [hitems, hmap, Option.map_some, hfilter]
  rfl

/-- An object without a list of questions is at most one question, alone or behind others. -/
theorem questionsOf_left (hfields : Doc.field questionsKey fields = none) :
    ∃ rest, rest.length ≤ 1 ∧ (∀ body, readJson body = some (.obj fields) → questionsOf body = some rest) ∧
      ∀ body (qs : List AskQ), (∀ q ∈ qs, q.Fits) →
        readJson body = some (.obj [(questionsKey, .arr (qs.map AskQ.doc ++ [.obj fields]))]) →
          questionsOf body = some (qs.map AskQ.trimmed ++ rest) := by
  obtain ⟨a, ha⟩ : ∃ a, askOf (.obj fields) = some a := ⟨_, rfl⟩
  have hitems : askItems (.obj fields) =
      if (Doc.field questionKey fields).any truthy then [.obj fields] else [] := by
    rw [askItems, get, hfields]
    rfl
  have hlone : ∀ body, readJson body = some (.obj fields) →
      questionsOf body = some ([a].filter fun q => decide q.Asks) := by
    intro body hread
    unfold questionsOf
    rw [hread]
    dsimp only
    rw [hitems]
    split_ifs with htruthy
    · rw [List.mapM_cons, ha]
      rfl
    · have hblank : a.question = [] := by
        obtain rfl := Option.some.inj ha
        have hget : get questionKey (.obj fields) = Doc.field questionKey fields := rfl
        dsimp only
        cases hfield : Doc.field questionKey fields with
        | none => rw [hget, hfield]
        | some v =>
          rw [hfield, Option.any_some] at htruthy
          rw [hget, hfield]
          cases v with
          | str s =>
            have hs : s = [] := not_not.1 fun hne => htruthy (decide_eq_true hne)
            rw [hs]
            rfl
          | _ => rfl
      have hasks : decide a.Asks = false := decide_eq_false fun h => h.1 hblank
      rw [List.filter_singleton, hasks]
      rfl
  refine ⟨_, (List.length_filter_le _ _).trans_eq List.length_singleton, hlone, fun body qs hqs hread => ?_⟩
  have hmap : (qs.map AskQ.doc ++ [Doc.obj fields]).mapM askOf = some (qs.map AskQ.trimmed ++ [a]) := by
    rw [List.mapM_append, mapM_askOf hqs, List.mapM_cons, ha]
    rfl
  have hall : askItems (.obj [(questionsKey, .arr (qs.map AskQ.doc ++ [.obj fields]))]) =
      qs.map AskQ.doc ++ [.obj fields] := rfl
  unfold questionsOf
  rw [hread]
  dsimp only
  rw [hall, hmap, Option.map_some, List.filter_append, filter_asks hqs]

/-- What the question that is being written adds, by itself and behind those in front of it. -/
theorem questionsOf_cut (hspell : ∀ c, JsonText.WrittenChar c (spell c))
    (hq : q.Fits) {u : List Char} (hu : u <+: fieldsText spell q) :
    ∃ rest, rest.length ≤ 1 ∧ questionsOf ('\x7b' :: u) = some rest ∧ ∀ qs : List AskQ, (∀ q ∈ qs, q.Fits) →
      let body := '\x7b' :: (upTo spell qs ++ between qs ++ '\x7b' :: u)
      questionsOf body = some (qs.map AskQ.trimmed ++ rest) ∨ (rest = [] ∧ questionsOf body = some []) := by
  obtain ⟨s1, hasking, hread, hwhole⟩ := readJson_object hspell hq.options_ne hu
  cases hclosed : s1.closed with
  | none =>
    rw [hclosed] at hread
    refine ⟨[], Nat.zero_le 1, by rw [questionsOf, hread], fun qs hqs => .inr ⟨rfl, ?_⟩⟩
    have hnone := hwhole qs fun q' hq' => (hqs q' hq').options_ne
    rw [hclosed] at hnone
    rw [questionsOf, hnone]
    rfl
  | some d =>
    obtain ⟨fields, rfl, hfields⟩ := hasking.closed_eq hclosed
    rw [hclosed] at hread
    obtain ⟨rest, hle, hlone, hbehind⟩ := questionsOf_left hfields
    refine ⟨rest, hle, hlone _ hread, fun qs hqs => .inl (hbehind _ qs hqs ?_)⟩
    rw [hwhole qs fun q' hq' => (hqs q' hq').options_ne, hclosed]
    rfl

end Portal.Ask
