import Mathlib.Data.List.Infix
import Mathlib.Data.List.Sort

/-! # Scanning a sequence for matches

A scan tries a pattern at every position from the left and goes on behind what
it has matched, as a global regular expression does. A pattern is given what
position it stands at and the rest of the sequence.

* `scan_cons`: one step of a scan, whatever the fuel.
* `mem_scan`, `end_le_of_mem_scan`: what is found are matches, one behind the other.
* `mem_scan_of`: a match is missed only if an earlier one reaches into it.
* `one_lt_length_scan_iff`: a pattern of a fixed length is found more than once if it
  matches at two places that do not overlap.
-/

namespace Scan

variable {α β : Type*} {m : Nat → List α → Option β} {len : β → Nat}

/-- At most `n` steps. -/
def scanUpTo (m : Nat → List α → Option β) (len : β → Nat) :
    Nat → Nat → List α → List (Nat × β)
  | 0, _, _ => []
  | _ + 1, _, [] => []
  | n + 1, pos, x :: t =>
      match m pos (x :: t) with
      | some b => (pos, b) :: scanUpTo m len n (pos + len b) ((x :: t).drop (len b))
      | none => scanUpTo m len n (pos + 1) t

/-- The matches from a position on, each with its own position. -/
def scan (m : Nat → List α → Option β) (len : β → Nat) (pos : Nat) (t : List α) :
    List (Nat × β) := scanUpTo m len t.length pos t

@[simp] theorem scan_nil (m : Nat → List α → Option β) (len : β → Nat) (pos : Nat) :
    scan m len pos [] = [] := rfl

/-- A match is not empty. -/
def Moves (m : Nat → List α → Option β) (len : β → Nat) : Prop :=
  ∀ pos t b, m pos t = some b → 0 < len b

variable {t : List α}

theorem scanUpTo_of_le (hlen : Moves m len) {n : Nat} (h : t.length ≤ n)
    (pos : Nat) : scanUpTo m len n pos t = scan m len pos t := by
  unfold scan
  induction n using Nat.strong_induction_on generalizing t pos with
  | _ n ih =>
    cases t with
    | nil => cases n <;> rfl
    | cons x t =>
      obtain ⟨k, rfl⟩ : ∃ k, n = k + 1 := ⟨n - 1, by simp only [List.length_cons] at h; omega⟩
      have ht : t.length ≤ k := by simpa using h
      rw [scanUpTo, List.length_cons, scanUpTo]
      cases hm : m pos (x :: t) with
      | none =>
        simp only
        rcases Nat.lt_or_ge t.length k with hlt | hge
        · exact ih k (by omega) ht (pos + 1)
        · rw [show k = t.length by omega]
      | some b =>
        have hdrop : ((x :: t).drop (len b)).length ≤ t.length := by
          have hb := hlen _ _ b hm
          simp only [List.length_drop, List.length_cons]
          omega
        simp only
        rw [ih k (by omega) (hdrop.trans ht)]
        rcases Nat.lt_or_ge t.length (k + 1) with hlt | hge
        · rw [ih t.length hlt hdrop]
        · omega

theorem scan_cons (hlen : Moves m len) (pos : Nat) (x : α) (t : List α) : scan m len pos (x :: t) =
      match m pos (x :: t) with
      | some b => (pos, b) :: scan m len (pos + len b) ((x :: t).drop (len b))
      | none => scan m len (pos + 1) t := by
  rw [scan, List.length_cons, scanUpTo]
  cases hm : m pos (x :: t) with
  | none => rfl
  | some b =>
    have hb := hlen _ _ b hm
    have hdrop : ((x :: t).drop (len b)).length ≤ t.length := by
      simp only [List.length_drop, List.length_cons]
      omega
    simp only
    rw [scanUpTo_of_le hlen hdrop]

theorem scan_append (hlen : Moves m len) {a t : List α} {pos : Nat}
    (h : ∀ i < a.length, m (pos + i) (a.drop i ++ t) = none) :
    scan m len pos (a ++ t) = scan m len (pos + a.length) t := by
  induction a generalizing pos with
  | nil => rfl
  | cons x a ih =>
    have hhead := h 0 (Nat.zero_lt_succ _)
    rw [Nat.add_zero, List.drop_zero, List.cons_append] at hhead
    rw [List.cons_append, scan_cons hlen, hhead]
    dsimp only
    rw [ih fun i hi => ?_, List.length_cons, Nat.add_assoc, Nat.add_comm 1]
    have htail := h (i + 1) (Nat.succ_lt_succ hi)
    rwa [List.drop_succ_cons, Nat.add_comm i, ← Nat.add_assoc] at htail

/-! ## What is found -/

variable {b : β}

theorem mem_scanUpTo {n pos p : Nat} (h : (p, b) ∈ scanUpTo m len n pos t) :
    pos ≤ p ∧ p < pos + t.length ∧ m p (t.drop (p - pos)) = some b := by
  induction n generalizing pos t with
  | zero => cases h
  | succ n ih =>
    cases t with
    | nil => cases h
    | cons x t =>
      rw [scanUpTo] at h
      simp only [List.length_cons]
      cases hm : m pos (x :: t) with
      | none =>
        rw [hm] at h
        obtain ⟨hpos, hlt, hmatch⟩ := ih h
        refine ⟨by omega, by omega, ?_⟩
        rwa [show p - pos = p - (pos + 1) + 1 by omega, List.drop_succ_cons]
      | some b' =>
        rw [hm] at h
        rcases List.mem_cons.1 h with h | h
        · cases h
          exact ⟨Nat.le_refl _, by omega, by rwa [Nat.sub_self, List.drop_zero]⟩
        · obtain ⟨hpos, hlt, hmatch⟩ := ih h
          rw [List.length_drop, List.length_cons] at hlt
          refine ⟨by omega, by omega, ?_⟩
          rwa [List.drop_drop, show len b' + (p - (pos + len b')) = p - pos by omega] at hmatch

theorem mem_scan {pos p : Nat} (h : (p, b) ∈ scan m len pos t) :
    pos ≤ p ∧ p < pos + t.length ∧ m p (t.drop (p - pos)) = some b :=
  mem_scanUpTo h

theorem end_le_of_mem_scan {pos p q : Nat} {b b' : β}
    (h : (p, b) ∈ scan m len pos t) (h' : (q, b') ∈ scan m len pos t) (hlt : q < p) :
    q + len b' ≤ p := by
  unfold scan at h h'
  generalize t.length = n at h h'
  induction n generalizing pos t with
  | zero => cases h
  | succ n ih =>
    cases t with
    | nil => cases h
    | cons x t =>
      rw [scanUpTo] at h h'
      cases hm : m pos (x :: t) with
      | none =>
        rw [hm] at h h'
        exact ih h h'
      | some b0 =>
        rw [hm] at h h'
        rcases List.mem_cons.1 h with h | h
        · cases h
          rcases List.mem_cons.1 h' with h' | h'
          · cases h'
            omega
          · have hpos := (mem_scanUpTo h').1
            omega
        · rcases List.mem_cons.1 h' with h' | h'
          · cases h'
            exact (mem_scanUpTo h).1
          · exact ih h h'

theorem mem_scan_of (hlen : Moves m len) {pos p : Nat} (hpos : pos ≤ p)
    (hlt : p < pos + t.length) (hb : m p (t.drop (p - pos)) = some b)
    (hfree : ∀ q b', (q, b') ∈ scan m len pos t → q < p → q + len b' ≤ p) :
    (p, b) ∈ scan m len pos t := by
  induction hn : t.length using Nat.strong_induction_on generalizing t pos with
  | _ n ih =>
    cases t with
    | nil =>
      rw [List.length_nil] at hlt
      omega
    | cons x t =>
      rw [List.length_cons] at hlt hn
      rw [scan_cons hlen] at hfree ⊢
      cases hm : m pos (x :: t) with
      | none =>
        rw [hm] at hfree
        have hne : p ≠ pos := by
          rintro rfl
          rw [Nat.sub_self, List.drop_zero, hm] at hb
          cases hb
        rw [show p - pos = p - (pos + 1) + 1 by omega, List.drop_succ_cons] at hb
        exact ih t.length (by omega) (by omega) (by omega) hb hfree rfl
      | some b0 =>
        rw [hm] at hfree
        rcases Nat.eq_or_lt_of_le hpos with rfl | hgt
        · rw [Nat.sub_self, List.drop_zero, hm] at hb
          cases hb
          exact List.mem_cons_self
        · have hend := hfree pos b0 List.mem_cons_self hgt
          have hb0 := hlen _ _ b0 hm
          have hdrop : ((x :: t).drop (len b0)).length = t.length + 1 - len b0 := by
            rw [List.length_drop, List.length_cons]
          refine List.mem_cons_of_mem _ (ih _ (by omega) hend (by omega) ?_
            (fun q b' hq => hfree q b' (List.mem_cons_of_mem _ hq)) rfl)
          rwa [List.drop_drop, show len b0 + (p - (pos + len b0)) = p - pos by omega]

/-- Two patterns that agree at every place before `n`, each on its own text, find the same
there. -/
theorem mem_scan_congr {m' : Nat → List α → Option β} {t t' : List α} {n : Nat} (hlen : Moves m len)
    (hlen' : Moves m' len) (ht : n ≤ t.length) (ht' : n ≤ t'.length)
    (h : ∀ p < n, m p (t.drop p) = m' p (t'.drop p)) {p : Nat} (hp : p < n) :
    (p, b) ∈ scan m len 0 t ↔ (p, b) ∈ scan m' len 0 t' := by
  induction p using Nat.strong_induction_on generalizing b with
  | _ p ih =>
    constructor
    · intro hmem
      have hmatch := (mem_scan hmem).2.2
      rw [Nat.sub_zero, h p hp] at hmatch
      refine mem_scan_of hlen' (Nat.zero_le p) (by omega) hmatch fun q b' hq hlt => ?_
      exact end_le_of_mem_scan hmem ((ih q hlt (hlt.trans hp)).2 hq) hlt
    · intro hmem
      have hmatch := (mem_scan hmem).2.2
      rw [Nat.sub_zero, ← h p hp] at hmatch
      refine mem_scan_of hlen (Nat.zero_le p) (by omega) hmatch fun q b' hq hlt => ?_
      exact end_le_of_mem_scan hmem ((ih q hlt (hlt.trans hp)).1 hq) hlt

/-! ## How many are found -/

theorem pairwise_scan (m : Nat → List α → Option β) (len : β → Nat) (pos : Nat) (t : List α) :
    (scan m len pos t).Pairwise fun a b => a.1 + len a.2 ≤ b.1 := by
  unfold scan
  generalize t.length = n
  induction n generalizing pos t with
  | zero => exact List.Pairwise.nil
  | succ n ih =>
    cases t with
    | nil => exact List.Pairwise.nil
    | cons x t =>
      rw [scanUpTo]
      cases hm : m pos (x :: t) with
      | none => exact ih (pos + 1) t
      | some b => exact List.Pairwise.cons (fun a ha => (mem_scanUpTo ha).1) (ih _ _)

/-- Two texts with the same beginning, at the places of which the pattern finds the same. -/
theorem scan_filter_eq (hlen : Moves m len) {a t t' : List α}
    (hsame : ∀ p < a.length, m p (a.drop p ++ t) = m p (a.drop p ++ t')) :
    (scan m len 0 (a ++ t)).filter (fun x => decide (x.1 < a.length)) =
      (scan m len 0 (a ++ t')).filter (fun x => decide (x.1 < a.length)) := by
  -- the places of the matches grow
  have hgrow : ∀ u, ((scan m len 0 u).filter fun x => decide (x.1 < a.length)).Pairwise
      (Function.onFun (· < ·) Prod.fst) := by
    intro u
    refine List.Pairwise.filter _ ((pairwise_scan m len 0 u).imp_of_mem fun {x _} hx _ hle => ?_)
    have hpos := hlen _ _ _ (mem_scan (p := x.1) hx).2.2
    exact Nat.lt_of_lt_of_le (Nat.lt_add_of_pos_right hpos) hle
  refine (hgrow _).eq_of_mem_iff (hgrow _) fun x => ?_
  rw [List.mem_filter, List.mem_filter]
  refine and_congr_left fun hx => ?_
  have hlt : x.1 < a.length := of_decide_eq_true hx
  refine mem_scan_congr hlen hlen (by rw [List.length_append]; omega) (by rw [List.length_append]; omega) ?_ hlt
  intro p hp
  rw [List.drop_append_of_le_length hp.le, List.drop_append_of_le_length hp.le]
  exact hsame p hp

theorem scan_eq_concat (hlen : Moves m len) {p : Nat} (h : (p, b) ∈ scan m len 0 t)
    (hend : t.length ≤ p + len b) :
    scan m len 0 t = ((scan m len 0 t).filter fun x => x.1 < p) ++ [(p, b)] := by
  have hrow := pairwise_scan m len 0 t
  have hmatches : ∀ x ∈ scan m len 0 t, x.1 < t.length ∧ 0 < len x.2 := by
    intro x hx
    obtain ⟨-, hlt, hmatch⟩ := mem_scan hx
    exact ⟨by omega, hlen _ _ _ hmatch⟩
  obtain ⟨before, behind, hsplit⟩ := List.append_of_mem h
  rw [hsplit] at hrow hmatches ⊢
  obtain ⟨-, hbehind, hbefore⟩ := List.pairwise_append.1 hrow
  obtain rfl : behind = [] := by
    refine List.eq_nil_iff_forall_not_mem.2 fun x hx => ?_
    have hle := (List.pairwise_cons.1 hbehind).1 x hx
    have hlt := (hmatches x (by simp [hx])).1
    dsimp only at hle
    omega
  have hkept : (before.filter fun x => x.1 < p) = before := by
    refine List.filter_eq_self.2 fun x hx => ?_
    have hle := hbefore x hx (p, b) List.mem_cons_self
    have hpos := (hmatches x (List.mem_append_left _ hx)).2
    dsimp only at hle
    exact decide_eq_true (by omega)
  rw [List.filter_append, hkept, List.filter_cons_of_neg (by simp), List.filter_nil, List.append_nil]

theorem scan_eq_nil_iff (hlen : Moves m len) (t : List α) :
    scan m len 0 t = [] ↔ ∀ p < t.length, m p (t.drop p) = none := by
  constructor
  · intro h p hp
    rw [Option.eq_none_iff_forall_ne_some]
    intro b hb
    have hmem : (p, b) ∈ scan m len 0 t := by
      refine mem_scan_of hlen (Nat.zero_le p) (by omega) hb ?_
      intro q b' hq
      rw [h] at hq
      cases hq
    rw [h] at hmem
    cases hmem
  · intro h
    refine List.eq_nil_iff_forall_not_mem.2 fun ⟨p, b⟩ hmem => ?_
    obtain ⟨-, hp, hb⟩ := mem_scan hmem
    rw [Nat.sub_zero, h p (by omega)] at hb
    cases hb

/-- A pattern of a fixed length is found more than once exactly if it matches at two
places that do not overlap. -/
theorem one_lt_length_scan_iff {k : Nat} (hk : 0 < k) (t : List α) : 1 < (scan m (fun _ => k) 0 t).length ↔
      ∃ p q, p + k ≤ q ∧ q < t.length ∧ (m p (t.drop p)).isSome ∧ (m q (t.drop q)).isSome := by
  have hlen : Moves m fun _ => k := fun _ _ _ _ => hk
  constructor
  · intro h
    have hpairs := pairwise_scan m (fun _ => k) 0 t
    cases hscan : scan m (fun _ => k) 0 t with
    | nil =>
      rw [hscan] at h
      cases h
    | cons a rest =>
      cases rest with
      | nil =>
        rw [hscan] at h
        exact absurd h (Nat.lt_irrefl 1)
      | cons b rest =>
        have ha : (a.1, a.2) ∈ scan m (fun _ => k) 0 t := by
          rw [hscan]
          exact List.mem_cons_self
        have hb : (b.1, b.2) ∈ scan m (fun _ => k) 0 t := by
          rw [hscan]
          exact List.mem_cons_of_mem a List.mem_cons_self
        rw [hscan] at hpairs
        obtain ⟨-, -, hma⟩ := mem_scan ha
        obtain ⟨-, hlt, hmb⟩ := mem_scan hb
        rw [Nat.sub_zero] at hma hmb
        refine ⟨a.1, b.1, (List.pairwise_cons.1 hpairs).1 b List.mem_cons_self, by omega, ?_, ?_⟩
        · rw [hma]
          rfl
        · rw [hmb]
          rfl
  · rintro ⟨p, q, hpq, hq, hmp, hmq⟩
    obtain ⟨b, hb⟩ := Option.isSome_iff_exists.1 hmp
    obtain ⟨c, hc⟩ := Option.isSome_iff_exists.1 hmq
    by_contra hle
    cases hscan : scan m (fun _ => k) 0 t with
    | nil =>
      rw [(scan_eq_nil_iff hlen t).1 hscan p (by omega)] at hb
      cases hb
    | cons a rest =>
      obtain rfl : rest = [] := by
        rw [hscan, List.length_cons] at hle
        exact List.length_eq_zero_iff.1 (by omega)
      -- whatever matches and is not reached into is `a`
      have honly : ∀ r d, r < t.length → m r (t.drop r) = some d → (a.1 < r → a.1 + k ≤ r) → r = a.1 := by
        intro r d hr hd hfree
        have hmem : (r, d) ∈ scan m (fun _ => k) 0 t := by
          refine mem_scan_of hlen (Nat.zero_le r) (by omega) hd ?_
          intro r' d' hr'
          rw [hscan, List.mem_singleton] at hr'
          rw [← hr'] at hfree
          exact hfree
        rw [hscan, List.mem_singleton] at hmem
        rw [← hmem]
      by_cases hreach : a.1 < p ∧ p < a.1 + k
      · have := honly q c hq hc (by omega)
        omega
      · have hp := honly p b (by omega) hb (by omega)
        have := honly q c hq hc (by omega)
        omega

/-! ## A text taken apart at its matches -/

/-- A piece of a text: what stands between two matches, or a match with its text. -/
inductive Part (α β : Type*) where
  | text (t : List α)
  | hit (p : Nat) (b : β) (raw : List α)

def Part.raw : Part α β → List α
  | .text t => t
  | .hit _ _ raw => raw

/-- The pieces of a text that begins at a position. -/
def parts (len : β → Nat) : Nat → List α → List (Nat × β) → List (Part α β)
  | _, t, [] => [.text t]
  | pos, t, (p, b) :: ms =>
      .text (t.take (p - pos)) :: .hit p b ((t.drop (p - pos)).take (len b)) ::
        parts len (p + len b) (t.drop (p - pos + len b)) ms

/-- The text with something else for each match. -/
def rewrite (len : β → Nat) (f : Nat → β → List α → List α) : Nat → List α → List (Nat × β) → List α
  | _, t, [] => t
  | pos, t, (p, b) :: ms =>
      t.take (p - pos) ++ f p b ((t.drop (p - pos)).take (len b)) ++
        rewrite len f (p + len b) (t.drop (p - pos + len b)) ms

/-- A piece with something else for a match. -/
def Part.shown (f : Nat → β → List α → List α) : Part α β → List α
  | .text t => t
  | .hit p b raw => f p b raw

theorem rewrite_eq_flatMap (f : Nat → β → List α → List α) (pos : Nat) (t : List α) (ms : List (Nat × β)) :
    rewrite len f pos t ms = (parts len pos t ms).flatMap (Part.shown f) := by
  induction ms generalizing pos t with
  | nil => exact (List.append_nil t).symm
  | cons m ms ih =>
    rw [rewrite, parts, List.flatMap_cons, List.flatMap_cons, ih, List.append_assoc]
    rfl

theorem flatMap_parts (pos : Nat) (t : List α) (ms : List (Nat × β)) :
    (parts len pos t ms).flatMap Part.raw = t := by
  induction ms generalizing pos t with
  | nil => exact List.append_nil t
  | cons m ms ih =>
    rw [parts, List.flatMap_cons, List.flatMap_cons, ih, ← List.drop_drop]
    show t.take (m.1 - pos) ++ ((t.drop (m.1 - pos)).take (len m.2) ++ (t.drop (m.1 - pos)).drop (len m.2)) = t
    rw [List.take_append_drop, List.take_append_drop]

/-- The matches among the pieces, where they stand one behind the other. -/
theorem hit_mem_parts_iff {pos p : Nat} {t raw : List α} {ms : List (Nat × β)}
    (hpos : ∀ x ∈ ms, pos ≤ x.1) (h : ms.Pairwise fun x y => x.1 + len x.2 ≤ y.1) :
    .hit p b raw ∈ parts len pos t ms ↔ (p, b) ∈ ms ∧ raw = (t.drop (p - pos)).take (len b) := by
  induction ms generalizing pos t with
  | nil =>
    rw [parts, List.mem_singleton]
    constructor
    · intro h
      cases h
    · rintro ⟨h, -⟩
      exact absurd h List.not_mem_nil
  | cons m ms ih =>
    obtain ⟨hm, hms⟩ := List.pairwise_cons.1 h
    obtain ⟨hmpos, -⟩ := List.forall_mem_cons.1 hpos
    rw [parts, List.mem_cons, List.mem_cons, List.mem_cons, ih hm hms]
    constructor
    · rintro (h | h | ⟨hmem, rfl⟩)
      · cases h
      · cases h
        exact ⟨.inl rfl, rfl⟩
      · have hle := hm _ hmem
        have hplace : m.1 - pos + len m.2 + (p - (m.1 + len m.2)) = p - pos := by
          dsimp only at hle
          omega
        rw [List.drop_drop, hplace]
        exact ⟨.inr hmem, rfl⟩
    · rintro ⟨h | hmem, rfl⟩
      · cases h
        exact .inr (.inl rfl)
      · have hle := hm _ hmem
        have hplace : m.1 - pos + len m.2 + (p - (m.1 + len m.2)) = p - pos := by
          dsimp only at hle
          omega
        rw [List.drop_drop, hplace]
        exact .inr (.inr ⟨hmem, rfl⟩)

end Scan
