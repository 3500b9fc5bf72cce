import DgxPlatform.Lib.JsonMachine
import Mathlib.Data.List.Infix

/-! # The members that have been read

In the middle of a JSON text the open arrays and objects hold the members that are complete. They
are found at paths from the outermost of them, and stay there to the end of the text if no object
reads a key it has.

* `step_effect`: what a step does to the open arrays and objects.
* `fresh_run`, `holds_run`: what is complete stays where it is.
* `wrap_holds`: also if the text is cut and everything closed.
-/

namespace JsonMachine

open JsonText (isSpace hexValue unescape)

/-! ## Paths -/

/-- One step into a value. -/
inductive Hop where
  | item (i : Nat)
  | field (key : List Char)
deriving DecidableEq

abbrev Path := List Hop

def member : Value → Hop → Option Value
  | .arr xs, .item i => xs[i]?
  | .obj fields, .field key => Doc.field key fields
  | _, _ => none

/-- What stands at a path. -/
def lookup : Value → Path → Option Value
  | v, [] => some v
  | v, h :: path => (member v h).bind fun x => lookup x path

/-- Where the next member goes. -/
def Frame.here : Frame → Hop
  | .arr xs => .item xs.length
  | .obj _ key => .field key

/-- The next member is a new one. -/
def Frame.Fresh : Frame → Prop
  | .arr _ => True
  | .obj fields key => Doc.field key fields = none

/-- Where the innermost of the open arrays and objects will be put. -/
def pathOf (fs : List Frame) : Path := (fs.map Frame.here).reverse

variable {f : Frame} {fs gs : List Frame} {v x y : Value} {h : Hop} {path : Path} {c : Char} {s s' : State} {t : List Char}

theorem field_setField (key : List Char) (v : Value) (fields : List (List Char × Value)) :
    Doc.field key (setField key v fields) = some v := by
  induction fields with
  | nil => exact if_pos rfl
  | cons field fields ih =>
    obtain ⟨k, x⟩ := field
    rw [setField]
    split_ifs with hk
    · exact if_pos hk
    · exact (if_neg hk).trans ih

theorem field_setField_of_ne {key k : List Char} (hne : k ≠ key) (v : Value) (fields : List (List Char × Value)) :
    Doc.field k (setField key v fields) = Doc.field k fields := by
  induction fields with
  | nil => exact if_neg hne.symm
  | cons field fields ih =>
    obtain ⟨k', x⟩ := field
    rw [setField]
    split_ifs with hk
    · rw [Doc.field, Doc.field, if_neg fun h => hne (h.symm.trans hk), if_neg fun h => hne (h.symm.trans hk)]
    · rw [Doc.field, Doc.field, ih]

theorem member_here (f : Frame) (v : Value) : member (f.add v).whole f.here = some v := by
  cases f with
  | arr xs => exact List.getElem?_concat_length
  | obj fields key => exact field_setField key v fields

theorem member_add (hfresh : f.Fresh) (v : Value) (hmem : member f.whole h = some x) :
    member (f.add v).whole h = some x := by
  cases f with
  | arr xs =>
    cases h with
    | item i =>
      have hi : i < xs.length := (List.getElem?_eq_some_iff.1 hmem).1
      exact (List.getElem?_append_left hi).trans hmem
    | field key => cases hmem
  | obj fields key =>
    cases h with
    | item i => cases hmem
    | field k =>
      have hne : k ≠ key := by
        rintro rfl
        cases hfresh.symm.trans hmem
      exact (field_setField_of_ne hne v fields).trans hmem

/-! ## Complete members -/

/-- At the path stands a complete member of an open array or object, or something in one. -/
def HoldsIn : List Frame → Path → Value → Prop
  | [], _, _ => False
  | f :: fs, path, x =>
      (∃ h rest, path = pathOf fs ++ h :: rest ∧ lookup f.whole (h :: rest) = some x) ∨ HoldsIn fs path x

/-- At the path stands something that has been read as a whole. -/
def State.Holds (s : State) (path : Path) (x : Value) : Prop :=
  HoldsIn s.frames path x ∨ ∃ v, s = ⟨[], .done v⟩ ∧ lookup v path = some x

theorem holdsIn_add (hfresh : f.Fresh) (v : Value) (hin : HoldsIn (f :: fs) path x) : HoldsIn (f.add v :: fs) path x := by
  rcases hin with ⟨h, rest, rfl, hmem⟩ | hin
  · obtain ⟨y, hy, hrest⟩ := Option.bind_eq_some_iff.1 hmem
    refine .inl ⟨h, rest, rfl, ?_⟩
    rw [lookup, member_add hfresh v hy]
    exact hrest
  · exact .inr hin

theorem holdsIn_close {g : Frame} (hfresh : g.Fresh) (hin : HoldsIn (f :: g :: gs) path x) :
    HoldsIn (g.add f.whole :: gs) path x := by
  rcases hin with ⟨h, rest, rfl, hmem⟩ | hin
  · refine .inl ⟨g.here, h :: rest, ?_, ?_⟩
    · rw [pathOf, List.map_cons, List.reverse_cons, List.append_assoc]
      rfl
    · rw [lookup, member_here]
      exact hmem
  · exact holdsIn_add hfresh f.whole hin

theorem lookup_of_holdsIn (hin : HoldsIn [f] path x) : lookup f.whole path = some x := by
  rcases hin with ⟨h, rest, rfl, hmem⟩ | hin
  · exact hmem
  · exact hin.elim

/-- What is complete when the text is cut is found where it was, when all is closed. -/
theorem wrap_holds (hfresh : ∀ g ∈ gs, g.Fresh) (hin : HoldsIn (f :: gs) path x) :
    lookup (wrap f.whole gs) path = some x := by
  induction gs generalizing f with
  | nil => exact lookup_of_holdsIn hin
  | cons g gs ih =>
    rw [List.forall_mem_cons] at hfresh
    exact ih hfresh.2 (holdsIn_close hfresh.1 hin)

theorem holds_give (hfresh : ∀ g ∈ fs.head?, g.Fresh) (hin : HoldsIn (f :: fs) path x) :
    (give f.whole fs).Holds path x := by
  cases fs with
  | nil => exact .inr ⟨f.whole, rfl, lookup_of_holdsIn hin⟩
  | cons g gs => exact .inl (holdsIn_close (hfresh g rfl) hin)

/-! ## What a step does -/

/-- The innermost array or object waits for a value. -/
def Mode.Pending : Mode → Prop
  | .value | .item | .colon | .num .. | .word .. => True
  | .str isKey .. => isKey = false
  | .key | .first | .after | .done _ => False

/-- The effects of a step on what is open. -/
inductive Effect (m : Mode) : List Frame → State → Prop
  /-- Nothing is complete yet. -/
  | stay (fs : List Frame) (m' : Mode)
      (hpending : m'.Pending → m' = .colon ∨ m.Pending ∨ ∃ xs gs, fs = .arr xs :: gs) : Effect m fs ⟨fs, m'⟩
  | openArr (fs : List Frame) (hpending : m.Pending) : Effect m fs ⟨.arr [] :: fs, .item⟩
  | openObj (fs : List Frame) (hpending : m.Pending) : Effect m fs ⟨.obj [] [] :: fs, .first⟩
  /-- A key has been read. -/
  | key (fields : List (List Char × Value)) (k k' : List Char) (fs : List Frame) :
      Effect m (.obj fields k :: fs) ⟨.obj fields k' :: fs, .colon⟩
  /-- A member is complete. -/
  | add (f : Frame) (fs : List Frame) (v : Value) (hpending : m.Pending) (m' : Mode)
      (hm' : m'.Pending → ∃ xs, f = .arr xs) : Effect m (f :: fs) ⟨f.add v :: fs, m'⟩
  /-- The whole value is complete. -/
  | finish (v : Value) : Effect m [] ⟨[], .done v⟩
  /-- The innermost array or object is complete. -/
  | close (f : Frame) (fs : List Frame) : Effect m (f :: fs) (give f.whole fs)
  | addClose (f : Frame) (fs : List Frame) (v : Value) (hpending : m.Pending) :
      Effect m (f :: fs) (give (f.add v).whole fs)

variable {m : Mode}

theorem effect_give (hpending : m.Pending) (v : Value) (fs : List Frame) : Effect m fs (give v fs) := by
  cases fs with
  | nil => exact .finish v
  | cons f fs => exact .add f fs v hpending .after fun h => h.elim

theorem effect_close (h : close c fs = some s') : Effect m fs s' := by
  cases fs with
  | nil => cases h
  | cons f fs =>
    rw [JsonMachine.close] at h
    split_ifs at h
    cases h
    exact .close f fs

theorem effect_beginValue (hpending : m.Pending) (h : beginValue fs c = some s') : Effect m fs s' := by
  have hstay : ∀ m', Effect m fs ⟨fs, m'⟩ := fun m' => .stay fs m' fun _ => .inr (.inl hpending)
  unfold beginValue at h
  split_ifs at h
  · cases h
    exact hstay _
  · cases h
    exact .openArr fs hpending
  · cases h
    exact .openObj fs hpending
  · cases h
    exact hstay _
  · cases h
    exact hstay _
  · cases h
    exact hstay _
  · cases h
    exact hstay _
  · obtain ⟨n, -, rfl⟩ := Option.map_eq_some_iff.1 h
    exact hstay _

theorem effect_afterValue (h : afterValue fs c = some s') : Effect m fs s' := by
  unfold afterValue at h
  split_ifs at h
  · cases h
    exact .stay fs .after fun h => h.elim
  · cases fs with
    | nil => cases h
    | cons f fs =>
      cases f with
      | arr xs =>
        cases h
        exact .stay _ .value fun _ => .inr (.inr ⟨xs, fs, rfl⟩)
      | obj fields key =>
        cases h
        exact .stay _ .key fun h => h.elim
  · exact effect_close h

theorem effect_endNumber {text : List Char} (hpending : m.Pending) (h : endNumber text c fs = some s') :
    Effect m fs s' := by
  cases fs with
  | nil =>
    rw [endNumber] at h
    split_ifs at h
    cases h
    exact .finish _
  | cons f fs =>
    have hafter : afterValue (f.add (.num text) :: fs) c = some s' := h
    unfold afterValue at hafter
    split_ifs at hafter
    · cases hafter
      exact .add f fs _ hpending .after fun h => h.elim
    · cases f with
      | arr xs =>
        cases hafter
        exact .add _ fs _ hpending .value fun _ => ⟨xs, rfl⟩
      | obj fields key =>
        cases hafter
        exact .add _ fs _ hpending .key fun h => h.elim
    · rw [JsonMachine.close] at hafter
      split_ifs at hafter
      cases hafter
      exact .addClose f fs _ hpending

theorem effect_string {isKey : Bool} {text : List Nat} {esc : Esc} (h : stepString fs isKey text c esc = some s') :
    Effect (.str isKey text esc) fs s' := by
  have hstay : ∀ text' esc', Effect (.str isKey text esc) fs ⟨fs, .str isKey text' esc'⟩ :=
    fun text' esc' => .stay fs _ fun hkey => .inr (.inl hkey)
  cases esc with
  | plain =>
    rw [stepString] at h
    split_ifs at h
    · cases h
      cases isKey with
      | false => exact effect_give (m := .str false text .plain) rfl _ fs
      | true =>
        cases fs with
        | nil => exact .stay [] .colon fun _ => .inl rfl
        | cons f fs =>
          cases f with
          | arr xs => exact .stay _ .colon fun _ => .inl rfl
          | obj fields k => exact .key fields k _ fs
    · cases h
      exact hstay _ _
    · cases h
      exact hstay _ _
  | slash =>
    rw [stepString] at h
    split_ifs at h
    · cases h
      exact hstay _ _
    · obtain ⟨e, -, rfl⟩ := Option.map_eq_some_iff.1 h
      exact hstay _ _
  | code n u =>
    obtain ⟨d, -, hs⟩ := Option.map_eq_some_iff.1 h
    split_ifs at hs
    · cases hs
      exact hstay _ _
    · cases hs
      exact hstay _ _

theorem step_effect (h : step s c = some s') : Effect s.mode s.frames s' := by
  obtain ⟨fs, m⟩ := s
  have hsame : Effect m fs ⟨fs, m⟩ := .stay fs m fun hm => .inr (.inl hm)
  cases m with
  | value =>
    dsimp only [step] at h
    split_ifs at h
    · cases h
      exact hsame
    · exact effect_beginValue trivial h
  | item =>
    dsimp only [step] at h
    split_ifs at h
    · cases h
      exact hsame
    · exact effect_close h
    · exact effect_beginValue trivial h
  | key =>
    dsimp only [step] at h
    split_ifs at h
    · cases h
      exact hsame
    · cases h
      exact .stay fs _ fun hkey => (Bool.noConfusion hkey)
  | first =>
    dsimp only [step] at h
    split_ifs at h
    · cases h
      exact hsame
    · exact effect_close h
    · cases h
      exact .stay fs _ fun hkey => (Bool.noConfusion hkey)
  | colon =>
    dsimp only [step] at h
    split_ifs at h
    · cases h
      exact hsame
    · cases h
      exact .stay fs _ fun _ => .inr (.inl trivial)
  | after => exact effect_afterValue h
  | str isKey text esc => exact effect_string h
  | num n text =>
    dsimp only [step] at h
    cases hnext : n.next c with
    | some n' =>
      rw [hnext] at h
      cases h
      exact .stay fs _ fun _ => .inr (.inl trivial)
    | none =>
      rw [hnext] at h
      dsimp only at h
      split_ifs at h
      exact effect_endNumber trivial h
  | word w n =>
    dsimp only [step] at h
    split_ifs at h
    · cases h
      exact effect_give (m := .word w n) trivial _ fs
    · cases h
      exact .stay fs _ fun _ => .inr (.inl trivial)
  | done v =>
    dsimp only [step] at h
    split_ifs at h
    cases h
    exact hsame

/-! ## No key is read twice -/

/-- The next members of all that is open are new. -/
structure State.Fresh (s : State) : Prop where
  outer : ∀ g ∈ s.frames.tail, g.Fresh
  inner : s.mode.Pending → ∀ f ∈ s.frames.head?, f.Fresh

/-- A key that has just been read is not in its object. -/
def State.NewKey (s : State) : Prop := s.mode = .colon → ∀ f ∈ s.frames.head?, f.Fresh

/-- No object of the text has a key twice. -/
def DistinctKeys (t : List Char) : Prop := ∀ a s, a <+: t → run start a = some s → s.NewKey

def State.hasNewKey (s : State) : Bool :=
  match s.mode, s.frames with
  | .colon, .obj fields key :: _ => (Doc.field key fields).isNone
  | _, _ => true

theorem newKey_of_hasNewKey (h : s.hasNewKey = true) : s.NewKey := by
  obtain ⟨fs, m⟩ := s
  intro hcolon f hf
  cases hcolon
  cases fs with
  | nil => cases hf
  | cons g gs =>
    obtain rfl : g = f := Option.some.inj hf
    cases g with
    | arr xs => trivial
    | obj fields key => exact Option.isNone_iff_eq_none.1 h

theorem distinctKeys_of_inits (h : ∀ a ∈ t.inits, (run start a).all State.hasNewKey = true) : DistinctKeys t := by
  intro a s ha hs
  have hall := h a ((List.mem_inits a t).2 ha)
  rw [hs] at hall
  exact newKey_of_hasNewKey hall

theorem fresh_start : start.Fresh := by
  refine ⟨List.forall_mem_nil _, fun _ f hf => ?_⟩
  cases hf

theorem fresh_give (hfresh : ∀ g ∈ fs.tail, g.Fresh) (v : Value) : (give v fs).Fresh := by
  cases fs with
  | nil => exact ⟨List.forall_mem_nil _, fun h => h.elim⟩
  | cons f fs => exact ⟨hfresh, fun h => h.elim⟩

theorem Effect.fresh (h : Effect m fs s') (houter : ∀ g ∈ fs.tail, g.Fresh)
    (hinner : m.Pending → ∀ f ∈ fs.head?, f.Fresh) (hkey : s'.NewKey) : s'.Fresh := by
  have hall : m.Pending → ∀ g ∈ fs, g.Fresh := by
    intro hpending
    cases fs with
    | nil => exact List.forall_mem_nil _
    | cons f fs => exact List.forall_mem_cons.2 ⟨hinner hpending f rfl, houter⟩
  cases h with
  | stay fs m' hm' =>
    refine ⟨houter, fun hpending => ?_⟩
    rcases hm' hpending with hcolon | hm | ⟨xs, gs, rfl⟩
    · exact hkey hcolon
    · exact hinner hm
    · rintro f hf
      cases hf
      trivial
  | openArr fs hpending =>
    refine ⟨hall hpending, fun _ f hf => ?_⟩
    cases hf
    trivial
  | openObj fs hpending => exact ⟨hall hpending, fun h => h.elim⟩
  | key fields k k' fs => exact ⟨houter, fun _ => hkey rfl⟩
  | add f fs v hpending m' hm' =>
    refine ⟨houter, fun hp g hg => ?_⟩
    obtain ⟨xs, rfl⟩ := hm' hp
    cases hg
    trivial
  | finish v => exact ⟨List.forall_mem_nil _, fun h => h.elim⟩
  | close f fs => exact fresh_give (fun g hg => houter g (List.mem_of_mem_tail hg)) _
  | addClose f fs v hpending => exact fresh_give (fun g hg => houter g (List.mem_of_mem_tail hg)) _

theorem Effect.holds (h : Effect m fs s') (houter : ∀ g ∈ fs.tail, g.Fresh)
    (hinner : m.Pending → ∀ f ∈ fs.head?, f.Fresh) (hin : HoldsIn fs path x) : s'.Holds path x := by
  cases h with
  | stay fs m' hm' => exact .inl hin
  | openArr fs hpending => exact .inl (.inr hin)
  | openObj fs hpending => exact .inl (.inr hin)
  | key fields k k' fs => exact .inl hin
  | add f fs v hpending m' hm' => exact .inl (holdsIn_add (hinner hpending f rfl) v hin)
  | finish v => exact hin.elim
  | close f fs => exact holds_give (fun g hg => houter g (List.mem_of_mem_head? hg)) hin
  | addClose f fs v hpending =>
    exact holds_give (fun g hg => houter g (List.mem_of_mem_head? hg)) (holdsIn_add (hinner hpending f rfl) v hin)

theorem step_fresh (h : step s c = some s') (hfresh : s.Fresh) (hkey : s'.NewKey) : s'.Fresh :=
  (step_effect h).fresh hfresh.outer hfresh.inner hkey

theorem step_holds (h : step s c = some s') (hfresh : s.Fresh) (hholds : s.Holds path x) : s'.Holds path x := by
  rcases hholds with hin | ⟨v, rfl, hv⟩
  · exact (step_effect h).holds hfresh.outer hfresh.inner hin
  · -- only white space comes behind the value
    dsimp only [step] at h
    split_ifs at h
    cases h
    exact .inr ⟨v, rfl, hv⟩

/-- Along a run with new keys the members stay fresh, and so does what a step from fresh members keeps. -/
theorem kept_run {P : State → Prop} (hstep : ∀ s c s', step s c = some s' → s.Fresh → P s → P s')
    (h : run s t = some s') (hfresh : s.Fresh) (hkeys : ∀ a s1, a <+: t → run s a = some s1 → s1.NewKey)
    (hP : P s) : s'.Fresh ∧ P s' := by
  induction t generalizing s with
  | nil =>
    cases h
    exact ⟨hfresh, hP⟩
  | cons c t ih =>
    rw [run_cons] at h
    obtain ⟨s1, hs1, hrun⟩ := Option.bind_eq_some_iff.1 h
    have hnew : s1.NewKey := hkeys [c] s1 (List.prefix_append [c] t) (by rw [run_cons, hs1]; rfl)
    refine ih hrun (step_fresh hs1 hfresh hnew) (fun a s2 ha hs2 => ?_) (hstep s c s1 hs1 hfresh hP)
    refine hkeys (c :: a) s2 (List.cons_prefix_cons.2 ⟨rfl, ha⟩) ?_
    rw [run_cons, hs1]
    exact hs2

theorem fresh_run (h : run s t = some s') (hfresh : s.Fresh)
    (hkeys : ∀ a s1, a <+: t → run s a = some s1 → s1.NewKey) : s'.Fresh :=
  (kept_run (P := fun _ => True) (fun _ _ _ _ _ _ => trivial) h hfresh hkeys trivial).1

theorem holds_run (h : run s t = some s') (hfresh : s.Fresh)
    (hkeys : ∀ a s1, a <+: t → run s a = some s1 → s1.NewKey) (hholds : s.Holds path x) : s'.Holds path x :=
  (kept_run (fun _ _ _ h hfresh hP => step_holds h hfresh hP) h hfresh hkeys hholds).2

end JsonMachine
