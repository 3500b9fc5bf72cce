import Mathlib.Data.List.Infix

/-! # Regular expressions with captures

Expressions over one-class repetitions, greedy or lazy, as a backtracking engine matches
them: the matches of a prefix in their order of preference, of which the first counts.

* `Rx.found` lists the matches, `Rx.first` is the one an engine answers, `captures` its
  groups.
* `first_greedy`, `first_lazy` and `first_one` say where a repetition stops;
  `first_seq_isSome` and `exists_of_first` when a sequence matches at all.
* `infix_of_found` and `of_mem_found`: a group holds characters of the text, of its class.
-/

universe u v

/-- An expression over the classes of `α`; a repetition may be captured under a name. -/
inductive Rx (α : Type u) (γ : Type v) where
  | nothing
  | chars (name : Option γ) (p : α → Bool) (lo : Nat) (hi : Option Nat) (lazy : Bool)
  | group (name : γ) (r : Rx α γ)
  | seq (r s : Rx α γ)
  | alt (r s : Rx α γ)
  /-- The end of the text. -/
  | eot

namespace Rx

variable {α : Type u} {γ : Type v}

/-- A match of a prefix: the groups, and what is left of the text. -/
structure Found (α : Type u) (γ : Type v) where
  caps : List (γ × List α)
  rest : List α

/-- The prefixes of one class, each with its rest, the shortest first. -/
def runs (p : α → Bool) : List α → List (List α × List α)
  | [] => [([], [])]
  | c :: t => ([], c :: t) :: if p c then (runs p t).map fun r => (c :: r.1, r.2) else []

/-- The length of a repetition lies within its bounds. -/
def fits (lo : Nat) (hi : Option Nat) (a : List α) : Bool :=
  decide (lo ≤ a.length) && hi.all fun n => decide (a.length ≤ n)

theorem fits_any (a : List α) : fits 0 none a = true := by simp [fits]

theorem fits_of_ne {a : List α} (h : a ≠ []) : fits 1 none a = true := by
  have hpos := List.length_pos_iff.2 h
  simp only [fits, Option.all_none, Bool.and_true, decide_eq_true_eq]
  omega

/-- The matches of a prefix, the preferred ones first. -/
def found : Rx α γ → List α → List (Found α γ)
  | nothing, t => [⟨[], t⟩]
  | chars name p lo hi lazy, t =>
      let rs := (runs p t).filter fun r => fits lo hi r.1
      (if lazy then rs else rs.reverse).map fun r => ⟨name.toList.map fun n => (n, r.1), r.2⟩
  | group name r, t =>
      (found r t).map fun m => ⟨(name, t.take (t.length - m.rest.length)) :: m.caps, m.rest⟩
  | seq r s, t =>
      (found r t).flatMap fun m => (found s m.rest).map fun m' => ⟨m.caps ++ m'.caps, m'.rest⟩
  | alt r s, t => found r t ++ found s t
  | eot, t => if t.isEmpty then [⟨[], []⟩] else []

def first (r : Rx α γ) (t : List α) : Option (Found α γ) := (r.found t).head?

/-- The groups of the match at the start of the text. -/
def captures (r : Rx α γ) (t : List α) : Option (List (γ × List α)) :=
  (r.first t).map Found.caps

/-! The usual notations. -/

/-- A character of a class. -/
def one (p : α → Bool) : Rx α γ := chars none p 1 (some 1) false

/-- `p*`. -/
def many (p : α → Bool) : Rx α γ := chars none p 0 none false

/-- `p+`. -/
def many1 (p : α → Bool) : Rx α γ := chars none p 1 none false

/-- `p?`. -/
def opt (p : α → Bool) : Rx α γ := chars none p 0 (some 1) false

/-- Expressions one behind the other. -/
def seqs : List (Rx α γ) → Rx α γ
  | [] => nothing
  | [r] => r
  | r :: rs => seq r (seqs rs)

/-- A text letter by letter. -/
def letters [DecidableEq α] (t : List α) : List (Rx α γ) := t.map fun c => one fun d => decide (d = c)

/-! ## Runs of one class -/

variable {p : α → Bool} {lo : Nat} {hi : Option Nat} {lazy : Bool} {name : Option γ}

theorem mem_runs {t a b : List α} : (a, b) ∈ runs p t ↔ t = a ++ b ∧ ∀ c ∈ a, p c = true := by
  induction t generalizing a with
  | nil =>
    rw [runs, List.mem_singleton]
    constructor
    · intro h
      cases h
      exact ⟨rfl, nofun⟩
    · rintro ⟨h, -⟩
      obtain ⟨rfl, rfl⟩ := List.append_eq_nil_iff.1 h.symm
      rfl
  | cons c t ih =>
    rw [runs, List.mem_cons]
    constructor
    · rintro (h | h)
      · cases h
        exact ⟨rfl, nofun⟩
      · split at h
        · next hc =>
            obtain ⟨⟨a', b'⟩, hr, heq⟩ := List.mem_map.1 h
            cases heq
            obtain ⟨rfl, ha⟩ := ih.1 hr
            exact ⟨rfl, List.forall_mem_cons.2 ⟨hc, ha⟩⟩
        · cases h
    · rintro ⟨h, ha⟩
      cases a with
      | nil => exact .inl (by rw [h]; rfl)
      | cons d a =>
        obtain ⟨rfl, rfl⟩ := List.cons.inj h
        obtain ⟨hc, ha⟩ := List.forall_mem_cons.1 ha
        rw [if_pos hc]
        exact .inr (List.mem_map.2 ⟨(a, b), ih.2 ⟨rfl, ha⟩, rfl⟩)

theorem runs_append {a b : List α} (ha : ∀ c ∈ a, p c = true) :
    ∃ shorter longer, runs p (a ++ b) = shorter ++ (a, b) :: longer ∧
      (∀ r ∈ shorter, r.1.length < a.length) ∧ ∀ r ∈ longer, a.length < r.1.length := by
  induction a with
  | nil =>
    cases b with
    | nil => exact ⟨[], [], rfl, nofun, nofun⟩
    | cons c t =>
      refine ⟨[], _, rfl, nofun, ?_⟩
      intro r hr
      split at hr
      · obtain ⟨r', -, rfl⟩ := List.mem_map.1 hr
        exact Nat.succ_pos _
      · cases hr
  | cons c a ih =>
    obtain ⟨hc, ha⟩ := List.forall_mem_cons.1 ha
    obtain ⟨shorter, longer, heq, hshort, hlong⟩ := ih ha
    refine ⟨([], c :: (a ++ b)) :: shorter.map fun r => (c :: r.1, r.2),
      longer.map fun r => (c :: r.1, r.2), ?_, ?_, ?_⟩
    · rw [List.cons_append, runs, if_pos hc, heq, List.map_append, List.map_cons]
      rfl
    · intro r hr
      rcases List.mem_cons.1 hr with rfl | hr
      · exact Nat.succ_pos _
      · obtain ⟨r', hr', rfl⟩ := List.mem_map.1 hr
        exact Nat.succ_lt_succ (hshort r' hr')
    · intro r hr
      obtain ⟨r', hr', rfl⟩ := List.mem_map.1 hr
      exact Nat.succ_lt_succ (hlong r' hr')

/-! ## First matches -/

variable {r s : Rx α γ} {t : List α}

@[simp] theorem first_nothing : (nothing : Rx α γ).first t = some ⟨[], t⟩ := rfl

@[simp] theorem first_eot_nil : (eot : Rx α γ).first [] = some ⟨[], []⟩ := rfl

theorem first_seq_alt {r₁ r₂ : Rx α γ} :
    (seq (alt r₁ r₂) s).first t = ((seq r₁ s).first t).or ((seq r₂ s).first t) := by
  show ((found r₁ t ++ found r₂ t).flatMap _).head? = _
  rw [List.flatMap_append, List.head?_append]
  rfl

theorem first_seq_assoc {r₁ r₂ : Rx α γ} :
    (seq (seq r₁ r₂) s).first t = (seq r₁ (seq r₂ s)).first t := by
  have hfound : (seq (seq r₁ r₂) s).found t = (seq r₁ (seq r₂ s)).found t := by
    simp only [found, List.flatMap_assoc, List.flatMap_map, List.map_flatMap, List.map_map,
      Function.comp_def, List.append_assoc]
  rw [first, first, hfound]

/-- What a sequence makes of a match of its first part. -/
def Found.andThen (m : Found α γ) (s : Rx α γ) : Option (Found α γ) :=
  (s.first m.rest).map fun m' => ⟨m.caps ++ m'.caps, m'.rest⟩

theorem first_seq : (seq r s).first t = (r.found t).findSome? fun m => Found.andThen m s := by
  show ((r.found t).flatMap _).head? = _
  rw [List.head?_flatMap]
  congr 1
  funext m
  exact List.head?_map

theorem first_seq_nothing : (seq nothing s).first t = s.first t := by
  rw [first_seq, found, List.findSome?_singleton, Found.andThen]
  simp

/-- A repetition followed by something: the first run behind which it matches. -/
theorem first_seq_chars : (seq (chars name p lo hi lazy) s).first t =
    (if lazy then (runs p t).filter fun r => fits lo hi r.1
      else ((runs p t).filter fun r => fits lo hi r.1).reverse).findSome? fun r =>
        (s.first r.2).map fun m => ⟨name.toList.map (fun n => (n, r.1)) ++ m.caps, m.rest⟩ := by
  rw [first_seq, found, List.findSome?_map]
  rfl

/-- A greedy repetition takes its longest run, when the rest matches behind it. -/
theorem first_greedy {a b : List α} (ha : ∀ c ∈ a, p c = true) (hfit : fits lo hi a = true)
    (hb : ∀ c ∈ b.head?, p c = false) {m : Found α γ} (hm : s.first b = some m) :
    (seq (chars name p lo hi false) s).first (a ++ b) =
      some ⟨name.toList.map (fun n => (n, a)) ++ m.caps, m.rest⟩ := by
  obtain ⟨shorter, longer, hruns, -, hlong⟩ := runs_append (p := p) (b := b) ha
  -- a longer run would go into the rest
  have hnone : longer = [] := by
    cases longer with
    | nil => rfl
    | cons r longer =>
      obtain ⟨a', b'⟩ := r
      have hmem : (a', b') ∈ runs p (a ++ b) := by simp [hruns]
      obtain ⟨heq, hall⟩ := mem_runs.1 hmem
      have hlen := hlong (a', b') List.mem_cons_self
      cases b with
      | nil =>
        have hle := congrArg List.length heq
        simp only [List.append_nil, List.length_append] at hle
        simp only at hlen
        omega
      | cons c b =>
        have hc : c ∈ a' := by
          have hpre : a ++ [c] <+: a' := by
            have hwhole : a ++ [c] <+: a ++ c :: b := ⟨b, by simp⟩
            refine List.prefix_of_prefix_length_le hwhole ⟨b', heq.symm⟩ ?_
            rw [List.length_append, List.length_singleton]
            exact hlen
          exact hpre.subset (by simp)
        have hfalse := hb c rfl
        rw [hall c hc] at hfalse
        cases hfalse
  rw [first_seq_chars, hruns, hnone]
  simp [hfit, hm]

theorem first_greedy_all {a : List α} (ha : ∀ c ∈ a, p c = true) (hfit : fits lo hi a = true)
    {m : Found α γ} (hm : s.first [] = some m) :
    (seq (chars name p lo hi false) s).first a =
      some ⟨name.toList.map (fun n => (n, a)) ++ m.caps, m.rest⟩ := by
  have h := @first_greedy _ _ p lo hi name s a [] ha hfit (fun c hc => by cases hc) m hm
  rwa [List.append_nil] at h

/-- A lazy repetition takes the shortest run behind which the rest matches. -/
theorem first_lazy {a b : List α} (ha : ∀ c ∈ a, p c = true) (hfit : fits lo hi a = true)
    {m : Found α γ} (hm : s.first b = some m)
    (hshort : ∀ x y, a = x ++ y → y ≠ [] → lo ≤ x.length → s.first (y ++ b) = none) :
    (seq (chars name p lo hi true) s).first (a ++ b) =
      some ⟨name.toList.map (fun n => (n, a)) ++ m.caps, m.rest⟩ := by
  obtain ⟨shorter, longer, hruns, hless, -⟩ := runs_append (p := p) (b := b) ha
  rw [first_seq_chars, hruns, if_pos rfl, List.filter_append, List.findSome?_append]
  have hnone : (shorter.filter fun r => fits lo hi r.1).findSome? (fun r =>
      (s.first r.2).map fun m => (⟨name.toList.map (fun n => (n, r.1)) ++ m.caps, m.rest⟩ :
        Found α γ)) = none := by
    refine List.findSome?_eq_none_iff.2 fun r hr => ?_
    obtain ⟨x, y'⟩ := r
    obtain ⟨hmem, hfits⟩ := List.mem_filter.1 hr
    have hlen := hless (x, y') hmem
    obtain ⟨heq, -⟩ := mem_runs.1 (show (x, y') ∈ runs p (a ++ b) by simp [hruns, hmem])
    obtain ⟨y, rfl⟩ : x <+: a :=
      List.prefix_of_prefix_length_le ⟨y', heq.symm⟩ ⟨b, rfl⟩ (Nat.le_of_lt hlen)
    have hy : y' = y ++ b := by
      rw [List.append_assoc] at heq
      exact (List.append_cancel_left heq).symm
    have hne : y ≠ [] := by
      rintro rfl
      simp at hlen
    rw [hy, hshort x y rfl hne (of_decide_eq_true (Bool.and_eq_true_iff.1 hfits).1)]
    rfl
  rw [hnone]
  simp [hfit, hm]

theorem first_one_cons (c : α) (t : List α) :
    (seq (one p) s).first (c :: t) = if p c = true then s.first t else none := by
  rw [one, first_seq_chars, if_neg Bool.false_ne_true]
  split
  · next hc =>
      -- of the runs only the one of a single character fits
      obtain ⟨shorter, longer, hruns, hless, hmore⟩ :=
        @runs_append _ p [c] t (by simpa using hc)
      have hdrop : ∀ rs : List (List α × List α), (∀ r ∈ rs, r.1.length ≠ 1) →
          rs.filter (fun r => fits 1 (some 1) r.1) = [] := by
        intro rs hrs
        refine List.filter_eq_nil_iff.2 fun r hr => ?_
        have hne := hrs r hr
        simp only [fits, Option.all_some, Bool.and_eq_true, decide_eq_true_eq]
        omega
      have hshort := hdrop shorter fun r hr => Nat.ne_of_lt (hless r hr)
      have hlong := hdrop longer fun r hr => (Nat.ne_of_lt (hmore r hr)).symm
      rw [List.singleton_append] at hruns
      rw [hruns, List.filter_append, hshort, List.filter_cons, hlong]
      simp [fits]
  · next hc => simp [runs, hc, fits]

theorem first_seq_nothing_right : (seq r nothing).first t = r.first t := by
  simp [first, found]

theorem first_last_one (c : α) (t : List α) :
    (one p : Rx α γ).first (c :: t) = if p c = true then some ⟨[], t⟩ else none := by
  rw [← first_seq_nothing_right, first_one_cons, first_nothing]

theorem of_first_one {m : Found α γ} (h : (seq (one p) s).first t = some m) :
    ∃ c t', t = c :: t' ∧ p c = true ∧ s.first t' = some m := by
  cases t with
  | nil => cases h
  | cons c t =>
    rw [first_one_cons] at h
    split at h
    · next hc => exact ⟨c, t, rfl, hc, h⟩
    · cases h

theorem first_skip {c : α} (hc : p c = false) :
    (seq (chars none p 0 hi lazy) s).first (c :: t) = s.first (c :: t) := by
  have hfits : fits 0 hi ([] : List α) = true := by cases hi <;> simp [fits]
  rw [first_seq_chars]
  simp [runs, hc, hfits]

theorem first_stuck {c : α} (hc : p c = false) :
    (seq (chars name p (lo + 1) hi lazy) s).first (c :: t) = none := by
  have hfits : fits (lo + 1) hi ([] : List α) = false := by simp [fits]
  rw [first_seq_chars]
  simp [runs, hc, hfits]

/-! ## Matches at all -/

theorem exists_of_first {m : Found α γ}
    (h : (seq (chars name p lo hi lazy) s).first t = some m) :
    ∃ a b m', t = a ++ b ∧ (∀ c ∈ a, p c = true) ∧ fits lo hi a = true ∧ s.first b = some m' ∧
      m = ⟨name.toList.map (fun n => (n, a)) ++ m'.caps, m'.rest⟩ := by
  rw [first_seq_chars] at h
  obtain ⟨⟨a, b⟩, hmem, hm⟩ := List.exists_of_findSome?_eq_some h
  obtain ⟨m', hm', rfl⟩ := Option.map_eq_some_iff.1 hm
  have hruns : (a, b) ∈ (runs p t).filter fun r => fits lo hi r.1 := by
    split at hmem
    · exact hmem
    · exact List.mem_reverse.1 hmem
  obtain ⟨hrun, hfits⟩ := List.mem_filter.1 hruns
  obtain ⟨ht, ha⟩ := mem_runs.1 hrun
  exact ⟨a, b, m', ht, ha, hfits, hm', rfl⟩

/-- A repetition matches when what follows matches behind one of its runs. -/
theorem first_seq_isSome {a b : List α} (ha : ∀ c ∈ a, p c = true) (hfit : fits lo hi a = true)
    (hb : (s.first b).isSome = true) :
    ((seq (chars name p lo hi lazy) s).first (a ++ b)).isSome = true := by
  by_contra hnone
  rw [Bool.not_eq_true, Option.isSome_eq_false_iff, Option.isNone_iff_eq_none, first_seq_chars,
    List.findSome?_eq_none_iff] at hnone
  have hmem : (a, b) ∈ (runs p (a ++ b)).filter fun r => fits lo hi r.1 :=
    List.mem_filter.2 ⟨mem_runs.2 ⟨rfl, ha⟩, hfit⟩
  have hfail := hnone (a, b) (by split <;> simpa using hmem)
  rw [Option.map_eq_none_iff] at hfail
  rw [hfail] at hb
  cases hb

/-- A lazy repetition goes no further than any run behind which the rest matches. -/
theorem length_le_of_first_lazy {n : γ} {m : Found α γ} {a b : List α}
    (h : (seq (chars (some n) p lo hi true) s).first t = some m) (ht : t = a ++ b)
    (ha : ∀ c ∈ a, p c = true) (hfit : fits lo hi a = true) (hb : (s.first b).isSome = true) :
    ∃ x y m', t = x ++ y ∧ s.first y = some m' ∧ m = ⟨(n, x) :: m'.caps, m'.rest⟩ ∧
      x.length ≤ a.length := by
  obtain ⟨shorter, longer, hruns, hless, -⟩ := @runs_append _ p a b ha
  obtain ⟨m₀, hm₀⟩ := Option.isSome_iff_exists.1 hb
  rw [← ht] at hruns
  have hkeep : (runs p t).filter (fun r => fits lo hi r.1) =
      shorter.filter (fun r => fits lo hi r.1) ++
        (a, b) :: longer.filter fun r => fits lo hi r.1 := by
    rw [hruns, List.filter_append, List.filter_cons, if_pos hfit]
  rw [first_seq_chars, if_pos rfl, hkeep, List.findSome?_append] at h
  cases hs : (shorter.filter fun r => fits lo hi r.1).findSome? (fun r =>
      (s.first r.2).map fun m => (⟨(some n).toList.map (fun n => (n, r.1)) ++ m.caps, m.rest⟩ :
        Found α γ)) with
  | none =>
    rw [hs, Option.none_or, List.findSome?_cons, hm₀] at h
    exact ⟨a, b, m₀, ht, hm₀, (Option.some.inj h).symm, Nat.le_refl _⟩
  | some m₁ =>
    rw [hs] at h
    obtain rfl : m₁ = m := Option.some.inj h
    obtain ⟨⟨x, y⟩, hmem, hm⟩ := List.exists_of_findSome?_eq_some hs
    obtain ⟨m', hm', rfl⟩ := Option.map_eq_some_iff.1 hm
    have hin := (List.mem_filter.1 hmem).1
    have hxy := mem_runs.1 (show (x, y) ∈ runs p t by rw [hruns]; exact List.mem_append_left _ hin)
    exact ⟨x, y, m', hxy.1, hm', rfl, Nat.le_of_lt (hless (x, y) hin)⟩

/-! ## Groups -/

/-- What is left of a match is an end of the text, and a group lies inside it. -/
theorem infix_of_found {m : Found α γ} (h : m ∈ r.found t) :
    m.rest <:+ t ∧ ∀ g ∈ m.caps, g.2 <:+: t := by
  induction r generalizing t m with
  | nothing =>
    obtain rfl := List.mem_singleton.1 h
    exact ⟨List.suffix_rfl, nofun⟩
  | chars name p lo hi lazy =>
    obtain ⟨⟨a, b⟩, hmem, rfl⟩ := List.mem_map.1 h
    have hruns : (a, b) ∈ runs p t := by
      split at hmem
      · exact (List.mem_filter.1 hmem).1
      · exact (List.mem_filter.1 (List.mem_reverse.1 hmem)).1
    obtain ⟨rfl, -⟩ := mem_runs.1 hruns
    refine ⟨⟨a, rfl⟩, fun g hg => ?_⟩
    obtain ⟨n, -, rfl⟩ := List.mem_map.1 hg
    exact List.infix_append' [] a b
  | group name r ih =>
    obtain ⟨m₁, hm₁, rfl⟩ := List.mem_map.1 h
    obtain ⟨hrest, hcaps⟩ := ih hm₁
    refine ⟨hrest, fun g hg => ?_⟩
    rcases List.mem_cons.1 hg with rfl | hg
    · exact (List.take_prefix _ _).isInfix
    · exact hcaps g hg
  | seq r s ihr ihs =>
    obtain ⟨m₁, hm₁, hm⟩ := List.mem_flatMap.1 h
    obtain ⟨m₂, hm₂, rfl⟩ := List.mem_map.1 hm
    obtain ⟨hrest₁, hcaps₁⟩ := ihr hm₁
    obtain ⟨hrest₂, hcaps₂⟩ := ihs hm₂
    refine ⟨hrest₂.trans hrest₁, fun g hg => ?_⟩
    rcases List.mem_append.1 hg with hg | hg
    · exact hcaps₁ g hg
    · exact (hcaps₂ g hg).trans hrest₁.isInfix
  | alt r s ihr ihs =>
    rcases List.mem_append.1 h with h | h
    · exact ihr h
    · exact ihs h
  | eot =>
    unfold found at h
    split at h
    · obtain rfl := List.mem_singleton.1 h
      exact ⟨List.nil_suffix, nofun⟩
    · cases h

/-- Only repetitions of the class `q` are captured under `n`. -/
def Keeps (n : γ) (q : α → Prop) : Rx α γ → Prop
  | chars name p _ _ _ => name = some n → ∀ c, p c = true → q c
  | group name r => name ≠ n ∧ Keeps n q r
  | seq r s => Keeps n q r ∧ Keeps n q s
  | alt r s => Keeps n q r ∧ Keeps n q s
  | _ => True

theorem of_mem_found {n : γ} {q : α → Prop} (hr : Keeps n q r) {m : Found α γ} (h : m ∈ r.found t) :
    ∀ x, (n, x) ∈ m.caps → ∀ c ∈ x, q c := by
  induction r generalizing t m with
  | nothing =>
    obtain rfl := List.mem_singleton.1 h
    exact nofun
  | chars name p lo hi lazy =>
    obtain ⟨⟨a, b⟩, hmem, rfl⟩ := List.mem_map.1 h
    have hruns : (a, b) ∈ runs p t := by
      split at hmem
      · exact (List.mem_filter.1 hmem).1
      · exact (List.mem_filter.1 (List.mem_reverse.1 hmem)).1
    intro x hx c hc
    obtain ⟨n', hn', heq⟩ := List.mem_map.1 hx
    cases heq
    exact hr (Option.mem_toList.1 hn') c ((mem_runs.1 hruns).2 c hc)
  | group name r ih =>
    obtain ⟨m₁, hm₁, rfl⟩ := List.mem_map.1 h
    intro x hx
    rcases List.mem_cons.1 hx with heq | hx
    · cases heq
      exact absurd rfl hr.1
    · exact ih hr.2 hm₁ x hx
  | seq r s ihr ihs =>
    obtain ⟨m₁, hm₁, hm⟩ := List.mem_flatMap.1 h
    obtain ⟨m₂, hm₂, rfl⟩ := List.mem_map.1 hm
    intro x hx
    rcases List.mem_append.1 hx with hx | hx
    · exact ihr hr.1 hm₁ x hx
    · exact ihs hr.2 hm₂ x hx
  | alt r s ihr ihs =>
    rcases List.mem_append.1 h with h | h
    · exact ihr hr.1 h
    · exact ihs hr.2 h
  | eot =>
    unfold found at h
    split at h
    · obtain rfl := List.mem_singleton.1 h
      exact nofun
    · cases h

theorem mem_found_of_first {m : Found α γ} (h : r.first t = some m) : m ∈ r.found t :=
  List.mem_of_head? h

/-! ## Replacements -/

/-- At most `n` steps. -/
def replaceUpTo (r : Rx α γ) (f : List (γ × List α) → List α) : Nat → List α → List α
  | 0, t => t
  | _ + 1, [] => []
  | n + 1, c :: t =>
      match r.first (c :: t) with
      | some m => f m.caps ++ replaceUpTo r f n m.rest
      | none => c :: replaceUpTo r f n t

/-- Every match from the left replaced by what `f` makes of its groups, for an expression that
matches no empty text. -/
def replaceAll (r : Rx α γ) (f : List (γ × List α) → List α) (t : List α) : List α :=
  replaceUpTo r f t.length t

/-- The match at the start of the text replaced. -/
def replaceStart (r : Rx α γ) (f : List (γ × List α) → List α) (t : List α) : List α :=
  match r.first t with
  | some m => f m.caps ++ m.rest
  | none => t

/-- At most `n` steps; `atStart` is set at the start of a line. -/
def replaceLinesUpTo (lineEnd : α → Bool) (r : Rx α γ) (f : List (γ × List α) → List α) :
    Nat → Bool → List α → List α
  | 0, _, t => t
  | _ + 1, _, [] => []
  | n + 1, atStart, c :: t =>
      match if atStart then r.first (c :: t) else none with
      | some m =>
          let last := ((c :: t).take (t.length + 1 - m.rest.length)).getLast?
          f m.caps ++ replaceLinesUpTo lineEnd r f n (last.any lineEnd) m.rest
      | none => c :: replaceLinesUpTo lineEnd r f n (lineEnd c) t

/-- Every match that begins at the start of a line replaced, as with `^` and the flag `m`. -/
def replaceLines (lineEnd : α → Bool) (r : Rx α γ) (f : List (γ × List α) → List α) (t : List α) : List α :=
  replaceLinesUpTo lineEnd r f t.length true t

/-- A replacement is shorter than what it replaces. -/
def Shrinks (r : Rx α γ) (f : List (γ × List α) → List α) : Prop :=
  ∀ t m, r.first t = some m → (f m.caps).length + m.rest.length < t.length

variable {f : List (γ × List α) → List α}

theorem length_replaceUpTo_le (hf : Shrinks r f) (n : Nat) (t : List α) :
    (replaceUpTo r f n t).length ≤ t.length := by
  induction n generalizing t with
  | zero => exact Nat.le_refl _
  | succ n ih =>
    cases t with
    | nil => exact Nat.le_refl _
    | cons c t =>
      rw [replaceUpTo]
      split
      · next m hm =>
          have hlt := hf _ _ hm
          have hrest := ih m.rest
          rw [List.length_append]
          omega
      · exact Nat.succ_le_succ (ih t)

theorem length_replaceUpTo_lt (hf : Shrinks r f) {n : Nat} {t u : List α} (hn : t.length ≤ n)
    (hu : u <:+ t) (hmatch : (r.first u).isSome = true) : (replaceUpTo r f n t).length < t.length := by
  induction n generalizing t with
  | zero =>
    obtain rfl := List.length_eq_zero_iff.1 (Nat.le_zero.1 hn)
    obtain rfl := List.suffix_nil.1 hu
    obtain ⟨m, hm⟩ := Option.isSome_iff_exists.1 hmatch
    exact absurd (hf _ _ hm) (Nat.not_lt_zero _)
  | succ n ih =>
    cases t with
    | nil =>
      obtain rfl := List.suffix_nil.1 hu
      obtain ⟨m, hm⟩ := Option.isSome_iff_exists.1 hmatch
      exact absurd (hf _ _ hm) (Nat.not_lt_zero _)
    | cons c t =>
      rw [replaceUpTo]
      split
      · next m hm =>
          have hlt := hf _ _ hm
          have hrest := length_replaceUpTo_le hf n m.rest
          rw [List.length_append]
          omega
      · next hnone =>
          -- the match is further on
          rcases List.suffix_cons_iff.1 hu with rfl | hu
          · rw [hnone] at hmatch
            cases hmatch
          · exact Nat.succ_lt_succ (ih (Nat.le_of_succ_le_succ hn) hu)

theorem replaceUpTo_eq_self {n : Nat} {t : List α} (h : ∀ u, u <:+ t → r.first u = none) :
    replaceUpTo r f n t = t := by
  induction n generalizing t with
  | zero => rfl
  | succ n ih =>
    cases t with
    | nil => rfl
    | cons c t =>
      rw [replaceUpTo, h _ List.suffix_rfl]
      show c :: replaceUpTo r f n t = c :: t
      rw [ih fun u hu => h u (hu.trans (List.suffix_cons c t))]

theorem replaceAll_eq_self_iff (hf : Shrinks r f) :
    replaceAll r f t = t ↔ ∀ u, u <:+ t → r.first u = none := by
  constructor
  · intro h u hu
    by_contra hsome
    have hlt := length_replaceUpTo_lt hf (Nat.le_refl t.length) hu (Option.isSome_iff_ne_none.2 hsome)
    have heq : (replaceUpTo r f t.length t).length = t.length := congrArg List.length h
    omega
  · exact replaceUpTo_eq_self

/-- The characters of a replaced text are the text's, when those of the replacements are. -/
theorem mem_of_replaceAll (hf : ∀ t m, r.first t = some m → ∀ c ∈ f m.caps, c ∈ t) {c : α}
    (h : c ∈ replaceAll r f t) : c ∈ t := by
  suffices ∀ n (t : List α), c ∈ replaceUpTo r f n t → c ∈ t from this _ _ h
  intro n
  induction n with
  | zero => exact fun t h => h
  | succ n ih =>
    intro t h
    cases t with
    | nil => exact h
    | cons d t =>
      rw [replaceUpTo] at h
      split at h
      · next m hm =>
          rcases List.mem_append.1 h with h | h
          · exact hf _ _ hm c h
          · exact (infix_of_found (mem_found_of_first hm)).1.subset (ih _ h)
      · rcases List.mem_cons.1 h with rfl | h
        · exact List.mem_cons_self
        · exact List.mem_cons_of_mem d (ih t h)

end Rx
