import Mathlib.Algebra.BigOperators.Group.List.Basic
import Mathlib.Algebra.GroupWithZero.Nat
import Mathlib.Data.List.Infix
import Mathlib.Order.Basic
import Mathlib.Tactic.Common

/-! # A budget for a list

The first elements of a list go until what is left fits a limit, one is kept at least.
The size of what is left is measured anew each time (`trim`), or counted down from the
first measure by the cost of each element that goes (`counted`).

* `longest_trim`: what is left is the longest end of the list that fits.
* `counted_eq_trim`: the two loops agree when the cost of an element is its part of the size.
* `suffix_trim_iff`: which ends of the list stay.
* `longest_keep`: a walk back over the list that stops at the first element beyond a number or a
  total leaves the longest end within both.
-/

namespace Budget

variable {α : Type} (size : List α → Nat) (limit : Nat)

def trim : List α → List α
  | m :: m' :: rest => if size (m :: m' :: rest) > limit then trim (m' :: rest) else m :: m' :: rest
  | l => l

def counted (cost : α → Nat) (total : Nat) : List α → List α
  | m :: m' :: rest =>
      if total > limit then counted cost (total - cost m) (m' :: rest) else m :: m' :: rest
  | l => l

/-- The longest end of a list that fits, or its last element. -/
structure Longest (l out : List α) : Prop where
  suffix : out <:+ l
  fits : size out ≤ limit ∨ out.length ≤ 1
  longest : ∀ s, s <:+ l → size s ≤ limit → s.length ≤ out.length
  nonempty : l ≠ [] → out ≠ []

variable {size limit} {l : List α}

theorem longest_self (h : size l ≤ limit ∨ l.length ≤ 1) : Longest size limit l l :=
  ⟨List.suffix_refl l, h, fun _ hs _ => hs.length_le, id⟩

theorem longest_trim (size : List α → Nat) (limit : Nat) (l : List α) :
    Longest size limit l (trim size limit l) := by
  fun_induction trim size limit l with
  | case1 m m' rest hover ih =>
    refine ⟨ih.suffix.trans (List.suffix_cons m _), ih.fits, ?_, fun _ => ih.nonempty (by simp)⟩
    intro s hs hfits
    rcases List.suffix_cons_iff.1 hs with rfl | htail
    · exact absurd hover (Nat.not_lt.2 hfits)
    · exact ih.longest s htail hfits
  | case2 m m' rest hfits => exact longest_self (.inl (Nat.not_lt.1 hfits))
  | case3 l hshort =>
    refine longest_self (.inr ?_)
    match l, hshort with
    | [], _ => exact Nat.zero_le 1
    | [_], _ => exact Nat.le_refl 1
    | m :: m' :: rest, hshort => exact absurd rfl (hshort m m' rest)

theorem trim_eq_self (h : size l ≤ limit ∨ l.length ≤ 1) : trim size limit l = l := by
  unfold trim
  split
  · rcases h with hfits | hlen
    · rw [if_neg (Nat.not_lt.2 hfits)]
    · simp only [List.length_cons] at hlen
      omega
  · rfl

theorem trim_trim (l : List α) : trim size limit (trim size limit l) = trim size limit l :=
  trim_eq_self (longest_trim size limit l).fits

/-- With the exact cost of each element the count down is the size of what is left. -/
theorem counted_eq_trim {cost : α → Nat}
    (hcost : ∀ m m' rest, size (m :: m' :: rest) = cost m + size (m' :: rest)) (l : List α) :
    counted limit cost (size l) l = trim size limit l := by
  fun_induction trim size limit l with
  | case1 m m' rest hover ih =>
    have hleft : size (m :: m' :: rest) - cost m = size (m' :: rest) := by
      rw [hcost, Nat.add_sub_cancel_left]
    rw [counted, if_pos hover, hleft, ih]
  | case2 m m' rest hfits => rw [counted, if_neg hfits]
  | case3 l hshort =>
    unfold counted
    split
    · exact absurd rfl (hshort _ _ _)
    · rfl

/-- An end of the list stays exactly if it fits or is the last element alone. -/
theorem suffix_trim_iff (hmono : ∀ s s', s <:+ s' → s ≠ [] → size s ≤ size s') {s : List α}
    (hs : s ≠ []) :
    s <:+ trim size limit l ↔ s <:+ l ∧ (size s ≤ limit ∨ s.length ≤ 1) := by
  have hspec := longest_trim size limit l
  constructor
  · intro h
    refine ⟨h.trans hspec.suffix, ?_⟩
    rcases hspec.fits with hfits | hlen
    · exact .inl (Nat.le_trans (hmono _ _ h hs) hfits)
    · exact .inr (Nat.le_trans h.length_le hlen)
  · rintro ⟨hsuffix, hfits⟩
    refine List.suffix_of_suffix_length_le hsuffix hspec.suffix ?_
    rcases hfits with hfits | hlen
    · exact hspec.longest s hsuffix hfits
    · have hl : l ≠ [] := by
        rintro rfl
        exact hs (List.suffix_nil.1 hsuffix)
      exact Nat.le_trans hlen (List.length_pos_of_ne_nil (hspec.nonempty hl))

/-! ## A walk from the end -/

section Walk

variable {α : Type}

/-- The longest end of a list that fits; if none fits, not even the empty one, nothing is left. -/
structure LongestEnd (ok : List α → Prop) (l out : List α) : Prop where
  suffix : out <:+ l
  fits : (∃ s, s <:+ l ∧ ok s) → ok out
  longest : ∀ s, s <:+ l → ok s → s.length ≤ out.length

/-- A bound, `none` for `Infinity`. -/
def Within (n : Int) (limit : Option Int) : Prop := ∀ k ∈ limit, n ≤ k

instance (n : Int) (limit : Option Int) : Decidable (Within n limit) := inferInstanceAs (Decidable (∀ k ∈ limit, n ≤ k))

def total (size : α → Nat) (l : List α) : Nat := (l.map size).sum

/-- So many elements at most, and so much of them. -/
def Fits (size : α → Nat) (max budget : Option Int) (l : List α) : Prop :=
  Within l.length max ∧ Within (total size l) budget

/-- The walk over all elements, the last one first. -/
def keep (size : α → Nat) (budget : Option Int) : Option Int → Int → List α → List α
  | _, _, [] => []
  | remaining, weight, x :: older =>
      if Within 1 remaining ∧ Within (weight + size x) budget then
        x :: keep size budget (remaining.map (· - 1)) (weight + size x) older
      else []

variable {size : α → Nat} {budget : Option Int}

theorem total_cons (size : α → Nat) (x : α) (l : List α) :
    (total size (x :: l) : Int) = size x + total size l := by
  rw [total, List.map_cons, List.sum_cons, Int.natCast_add]
  rfl

theorem within_sub_one {n : Int} {limit : Option Int} : Within n (limit.map (· - 1)) ↔ Within (n + 1) limit := by
  cases limit with
  | none => simp [Within]
  | some k =>
    simp only [Within, Option.map_some, Option.mem_some_iff, forall_eq']
    omega

theorem within_of_le {m n : Int} {limit : Option Int} (h : Within n limit) (hmn : m ≤ n) : Within m limit :=
  fun k hk => Int.le_trans hmn (h k hk)

theorem keep_prefix (remaining : Option Int) (weight : Int) (l : List α) :
    keep size budget remaining weight l <+: l := by
  induction l generalizing remaining weight with
  | nil => exact List.prefix_refl []
  | cons x older ih =>
    rw [keep]
    split_ifs with hgo
    · exact (List.prefix_cons_inj x).2 (ih _ _)
    · exact List.nil_prefix

theorem keep_fits {remaining : Option Int} {weight : Int} {l : List α} (hremaining : Within 0 remaining)
    (hweight : Within weight budget) :
    Within (keep size budget remaining weight l).length remaining ∧
      Within (weight + total size (keep size budget remaining weight l)) budget := by
  induction l generalizing remaining weight with
  | nil => simpa [keep, total] using ⟨hremaining, hweight⟩
  | cons x older ih =>
    rw [keep]
    split_ifs with hgo
    · rcases ih (within_sub_one.2 hgo.1) hgo.2 with ⟨hlen, hsum⟩
      rw [within_sub_one] at hlen
      rw [total_cons, List.length_cons, Int.natCast_add, ← Int.add_assoc]
      exact ⟨hlen, hsum⟩
    · simpa [total] using ⟨hremaining, hweight⟩

theorem length_le_keep {remaining : Option Int} {weight : Int} {l s : List α} (hs : s <+: l)
    (hlen : Within s.length remaining) (hsum : Within (weight + total size s) budget) :
    s.length ≤ (keep size budget remaining weight l).length := by
  induction l generalizing remaining weight s with
  | nil =>
    rw [List.prefix_nil.1 hs]
    exact Nat.zero_le _
  | cons x older ih =>
    cases s with
    | nil => exact Nat.zero_le _
    | cons y s =>
      rcases List.cons_prefix_cons.1 hs with ⟨rfl, hrest⟩
      rw [total_cons, ← Int.add_assoc] at hsum
      rw [List.length_cons, Int.natCast_add] at hlen
      have hgo : Within 1 remaining ∧ Within (weight + size y) budget := by
        constructor
        · exact within_of_le hlen (by omega)
        · exact within_of_le hsum (by omega)
      rw [keep, if_pos hgo, List.length_cons, List.length_cons]
      exact Nat.succ_le_succ (ih hrest (within_sub_one.2 hlen) hsum)

theorem longest_keep (size : α → Nat) (max budget : Option Int) (l : List α) :
    LongestEnd (Fits size max budget) l (keep size budget max 0 l.reverse).reverse where
  suffix := by
    rw [← List.reverse_prefix, List.reverse_reverse]
    exact keep_prefix max 0 l.reverse
  fits := by
    rintro ⟨s, -, hlen, hsum⟩
    have hmax : Within 0 max := within_of_le hlen (by omega)
    have hbudget : Within 0 budget := within_of_le hsum (by omega)
    rcases @keep_fits _ size budget max 0 l.reverse hmax hbudget with ⟨hlen', hsum'⟩
    constructor
    · rw [List.length_reverse]
      exact hlen'
    · rw [total, List.map_reverse, List.sum_reverse]
      rwa [Int.zero_add] at hsum'
  longest := by
    rintro s hs ⟨hlen, hsum⟩
    rw [List.length_reverse, ← @List.length_reverse _ s]
    apply length_le_keep (List.reverse_prefix.2 hs)
    · rwa [List.length_reverse]
    · rw [Int.zero_add, total, List.map_reverse, List.sum_reverse]
      exact hsum

theorem keep_of_not_within {remaining : Option Int} (h : ¬ Within 1 remaining) (weight : Int) (l : List α) :
    keep size budget remaining weight l = [] := by
  cases l with
  | nil => rfl
  | cons x older => rw [keep, if_neg fun hgo => h hgo.1]

theorem longest_take (n : Nat) (l : List α) :
    LongestEnd (fun s => s.length ≤ n) l (l.reverse.take n).reverse where
  suffix := by
    rw [← List.reverse_prefix, List.reverse_reverse]
    exact List.take_prefix n l.reverse
  fits := by
    intro _
    rw [List.length_reverse]
    exact List.length_take_le n _
  longest := by
    intro s hs hlen
    rw [List.length_reverse, List.length_take, List.length_reverse]
    exact Nat.le_min.2 ⟨hlen, hs.length_le⟩

end Walk

end Budget
