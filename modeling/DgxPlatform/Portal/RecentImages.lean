import DgxPlatform.Lib.Budget
import DgxPlatform.Portal.ChatHistory
import DgxPlatform.Portal.Playground

/-! # The newest images of a conversation

`recentImages` bounds the images that the page saves or sends, by their number and by their total
length, `bound_images` those that the model gets, by their number. Both walk back over the messages
and in each message back over its images.

* `revImages_recentFrom`: the two loops of `recentImages` are one walk back over all images.
-/

open Budget (Within Fits LongestEnd keep)

namespace Portal.Images

/-! ## What the page keeps -/

section Page

variable {F α : Type}

/-- A message: its images, and whatever else it has. -/
structure Message (F α : Type) where
  fields : F
  images : Option (List α)
deriving DecidableEq

def imagesOf (msgs : List (Message F α)) : List α := msgs.flatMap fun m => m.images.getD []

variable (size : α → Nat) (budget : Option Int)

/-- The inner loop, over the images of one message from the last one on: what is kept, and the two
counters behind it. -/
def guardImages : Option Int → Int → List α → List α × Option Int × Int
  | remaining, weight, [] => ([], remaining, weight)
  | remaining, weight, img :: earlier =>
      if ¬ Within 1 remaining then ([], remaining, weight)
      else if ¬ Within (weight + size img) budget then ([], some 0, weight)
      else
        let r := guardImages (remaining.map (· - 1)) (weight + size img) earlier
        (r.1 ++ [img], r.2)

/-- The outer loop, over the messages from the last one on. -/
def recentFrom : Option Int → Int → List (Message F α) → List (Message F α)
  | _, _, [] => []
  | remaining, weight, m :: earlier =>
      let imgs := m.images.getD []
      if imgs.isEmpty then m :: recentFrom remaining weight earlier
      else
        let r := guardImages size budget remaining weight imgs.reverse
        { m with images := if r.1.isEmpty then none else some r.1 } :: recentFrom r.2.1 r.2.2 earlier

def recentImages (max : Option Int) (msgs : List (Message F α)) : List (Message F α) :=
  (recentFrom size budget max 0 msgs.reverse).reverse

variable {size budget}

/-- The images of messages that are listed from the last one on. -/
def revImages (msgs : List (Message F α)) : List α := msgs.flatMap fun m => (m.images.getD []).reverse

theorem revImages_cons (m : Message F α) (msgs : List (Message F α)) :
    revImages (m :: msgs) = (m.images.getD []).reverse ++ revImages msgs := List.flatMap_cons

theorem recentFrom_of_empty {m : Message F α} (h : (m.images.getD []).isEmpty = true) (remaining : Option Int)
    (weight : Int) (earlier : List (Message F α)) :
    recentFrom size budget remaining weight (m :: earlier) = m :: recentFrom size budget remaining weight earlier :=
  if_pos h

theorem recentFrom_of_images {m : Message F α} (h : ¬ (m.images.getD []).isEmpty = true) (remaining : Option Int)
    (weight : Int) (earlier : List (Message F α)) :
    recentFrom size budget remaining weight (m :: earlier) =
      let r := guardImages size budget remaining weight (m.images.getD []).reverse
      { m with images := if r.1.isEmpty then none else some r.1 } :: recentFrom size budget r.2.1 r.2.2 earlier :=
  if_neg h

theorem revImages_reverse (msgs : List (Message F α)) : revImages msgs.reverse = (imagesOf msgs).reverse := by
  rw [imagesOf, List.reverse_flatMap]
  rfl

/-- The inner loop is the walk over its message, and leaves the counters for the older ones. -/
theorem keep_guardImages (remaining : Option Int) (weight : Int) (imgs older : List α) :
    keep size budget remaining weight (imgs ++ older) =
      (guardImages size budget remaining weight imgs).1.reverse ++
        keep size budget (guardImages size budget remaining weight imgs).2.1
          (guardImages size budget remaining weight imgs).2.2 older := by
  induction imgs generalizing remaining weight with
  | nil => rfl
  | cons img imgs ih =>
    rw [List.cons_append, keep, guardImages]
    by_cases hone : Within 1 remaining
    · rw [if_neg (not_not.2 hone)]
      by_cases hfits : Within (weight + size img) budget
      · rw [if_pos ⟨hone, hfits⟩, if_neg (not_not.2 hfits), ih]
        dsimp only
        rw [List.reverse_append]
        rfl
      · -- over the budget: the counter is zero from here on
        rw [if_neg fun h => hfits h.2, if_pos hfits]
        have hzero : ¬ Within 1 (some 0) := by decide
        rw [Budget.keep_of_not_within hzero]
        rfl
    · rw [if_neg fun h => hone h.1, if_pos hone, Budget.keep_of_not_within hone]
      rfl

theorem revImages_recentFrom (remaining : Option Int) (weight : Int) (msgs : List (Message F α)) :
    revImages (recentFrom size budget remaining weight msgs) = keep size budget remaining weight (revImages msgs) := by
  induction msgs generalizing remaining weight with
  | nil => rfl
  | cons m msgs ih =>
    by_cases hempty : (m.images.getD []).isEmpty = true
    · rw [recentFrom_of_empty hempty, revImages_cons, revImages_cons, List.isEmpty_iff.1 hempty]
      exact ih remaining weight
    · rw [recentFrom_of_images hempty, revImages_cons m, keep_guardImages]
      dsimp only
      rw [revImages_cons, ih]
      congr 2
      split_ifs with hnone
      · rw [List.isEmpty_iff.1 hnone]
        rfl
      · rfl

theorem fields_recentFrom (remaining : Option Int) (weight : Int) (msgs : List (Message F α)) :
    (recentFrom size budget remaining weight msgs).map Message.fields = msgs.map Message.fields := by
  induction msgs generalizing remaining weight with
  | nil => rfl
  | cons m msgs ih =>
    by_cases hempty : (m.images.getD []).isEmpty = true
    · rw [recentFrom_of_empty hempty, List.map_cons, List.map_cons, ih]
    · rw [recentFrom_of_images hempty]
      dsimp only
      rw [List.map_cons, List.map_cons, ih]

theorem recentImages_spec (max : Option Int) (msgs : List (Message F α)) :
    LongestEnd (Fits size max budget) (imagesOf msgs) (imagesOf (recentImages size budget max msgs)) ∧
      (recentImages size budget max msgs).map Message.fields = msgs.map Message.fields := by
  constructor
  · have hkept : imagesOf (recentImages size budget max msgs) = (keep size budget max 0 (imagesOf msgs).reverse).reverse := by
      rw [← revImages_reverse, ← revImages_recentFrom, recentImages, ← List.reverse_inj, ← revImages_reverse,
        List.reverse_reverse, List.reverse_reverse]
    rw [hkept]
    exact Budget.longest_keep size max budget (imagesOf msgs)
  · rw [recentImages, List.map_reverse, fields_recentFrom, ← List.map_reverse, List.reverse_reverse]

end Page

/-- What a save keeps is an instance: a message without its images, and its images. -/
def ofSaved (m : Playground.SavedMsg) : Message Playground.SavedMsg (List Char) :=
  { fields := { m with images := none }, images := m.images }

theorem guardImages_saved (budget : Nat) (remaining : Option Nat) (weight : Nat) (imgs : List (List Char)) :
    let r := Playground.guardImages budget remaining weight imgs
    guardImages List.length (some (budget : Int)) (remaining.map Int.ofNat) weight imgs =
      (r.1, r.2.1.map Int.ofNat, (r.2.2 : Int)) := by
  induction imgs generalizing remaining weight with
  | nil => rfl
  | cons img imgs ih =>
    have hone : Within 1 (remaining.map Int.ofNat) ↔ remaining ≠ some 0 := by
      cases remaining with
      | none => simp [Within]
      | some k =>
        simp only [Within, Option.map_some, Option.mem_some_iff, forall_eq', Int.ofNat_eq_natCast, ne_eq,
          Option.some.injEq]
        omega
    have hfits : Within ((weight : Int) + img.length) (some (budget : Int)) ↔ ¬ weight + img.length > budget := by
      simp only [Within, Option.mem_some_iff, forall_eq']
      omega
    rw [guardImages, Playground.guardImages]
    by_cases hzero : remaining = some 0
    · rw [if_pos (fun h => hone.1 h hzero), if_pos hzero]
    · rw [if_neg (not_not.2 (hone.2 hzero)), if_neg hzero]
      by_cases hover : weight + img.length > budget
      · rw [if_pos (fun h => hfits.1 h hover), if_pos hover]
        rfl
      · have hmap : (remaining.map Int.ofNat).map (· - 1) = (remaining.map (· - 1)).map Int.ofNat := by
          cases remaining with
          | none => rfl
          | some k =>
            have hk : k ≠ 0 := fun h => hzero (congrArg some h)
            simp only [Option.map_some, Int.ofNat_eq_natCast, Option.some.injEq]
            omega
        have hrest := ih (remaining.map (· - 1)) (weight + img.length)
        rw [if_neg (not_not.2 (hfits.2 hover)), if_neg hover, hmap]
        dsimp only at hrest ⊢
        rw [← Int.natCast_add, hrest]

theorem recentImages_saved (max : Option Nat) (budget : Nat) (msgs : List Playground.SavedMsg) :
    (Playground.recentImages max budget msgs).map ofSaved =
      recentImages List.length (some (budget : Int)) (max.map Int.ofNat) (msgs.map ofSaved) := by
  have hfrom : ∀ (l : List Playground.SavedMsg) (remaining : Option Nat) (weight : Nat),
      (Playground.recentImagesFrom budget remaining weight l).map ofSaved =
        recentFrom List.length (some (budget : Int)) (remaining.map Int.ofNat) weight (l.map ofSaved) := by
    intro l
    induction l with
    | nil =>
      intro remaining weight
      rfl
    | cons m l ih =>
      intro remaining weight
      have himages : (ofSaved m).images = m.images := rfl
      rw [Playground.recentImagesFrom, List.map_cons]
      dsimp only
      by_cases hempty : (m.images.getD []).isEmpty = true
      · rw [recentFrom_of_empty (by rwa [himages]), if_pos hempty, List.map_cons, ih]
      · rw [recentFrom_of_images (by rwa [himages]), if_neg hempty, List.map_cons, ih, himages, guardImages_saved]
        rfl
  rw [Playground.recentImages, recentImages, List.map_reverse, hfrom, List.map_reverse]
  rfl

/-! ## What the model gets -/

def MAX_IMAGES_PER_REQUEST : Nat := 8

/-- A subtraction that fails below zero. -/
def checkedSub (a b : Nat) : Option Nat := if b ≤ a then some (a - b) else none

/-- The loop, over the messages from the last one on. -/
def boundFrom : Nat → List History.Msg → Option (List History.Msg)
  | _, [] => some []
  | remaining, h :: older =>
      if h.images.isEmpty then (boundFrom remaining older).map (h :: ·)
      else do
        let keep := min h.images.length remaining
        let first ← checkedSub h.images.length keep
        let left ← checkedSub remaining keep
        let rest ← boundFrom left older
        return { h with images := h.images.drop first } :: rest

def boundImages (history : List History.Msg) (sees : Bool) : Option (List History.Msg) :=
  (boundFrom (if sees then MAX_IMAGES_PER_REQUEST else 0) history.reverse).map List.reverse

/-- All images of a conversation. -/
def historyImages (history : List History.Msg) : List String := history.flatMap History.Msg.images

def revHistoryImages (history : List History.Msg) : List String := history.flatMap fun h => h.images.reverse

/-- The loop returns, takes so many of the newest images and changes nothing else. -/
theorem boundFrom_spec (remaining : Nat) (history : List History.Msg) :
    ∃ out, boundFrom remaining history = some out ∧
      revHistoryImages out = (revHistoryImages history).take remaining ∧
      (out.map fun h => (h.role, h.content)) = history.map fun h => (h.role, h.content) := by
  induction history generalizing remaining with
  | nil => exact ⟨[], rfl, List.take_nil.symm, rfl⟩
  | cons h older ih =>
    rw [boundFrom]
    by_cases hempty : h.images.isEmpty = true
    · rcases ih remaining with ⟨out, hout, himages, hfields⟩
      have hnil := List.isEmpty_iff.1 hempty
      refine ⟨h :: out, ?_, ?_, ?_⟩
      · rw [if_pos hempty, hout]
        rfl
      · simp only [revHistoryImages, List.flatMap_cons, hnil, List.reverse_nil, List.nil_append]
        exact himages
      · rw [List.map_cons, List.map_cons, hfields]
    · rcases ih (remaining - min h.images.length remaining) with ⟨out, hout, himages, hfields⟩
      have hfirst : checkedSub h.images.length (min h.images.length remaining) =
          some (h.images.length - min h.images.length remaining) := if_pos (Nat.min_le_left _ _)
      have hleft : checkedSub remaining (min h.images.length remaining) =
          some (remaining - min h.images.length remaining) := if_pos (Nat.min_le_right _ _)
      refine ⟨{ h with images := h.images.drop (h.images.length - min h.images.length remaining) } :: out, ?_, ?_, ?_⟩
      · rw [if_neg hempty]
        dsimp only
        rw [hfirst, hleft, Option.bind_eq_bind, Option.bind_some, Option.bind_eq_bind, Option.bind_some, hout]
        rfl
      · -- the newest images of this message, then those of the older ones
        rw [revHistoryImages, List.flatMap_cons, revHistoryImages, List.flatMap_cons, List.take_append,
          List.length_reverse]
        have hmine : (h.images.drop (h.images.length - min h.images.length remaining)).reverse =
            h.images.reverse.take remaining := by
          rw [← List.take_reverse, List.take_eq_take_iff, List.length_reverse]
          omega
        have hcount : remaining - min h.images.length remaining = remaining - h.images.length := by omega
        dsimp only
        rw [hmine]
        congr 1
        rw [← hcount]
        exact himages
      · rw [List.map_cons, List.map_cons, hfields]

theorem boundImages_spec (history : List History.Msg) (sees : Bool) :
    ∃ out, boundImages history sees = some out ∧
      LongestEnd (fun s => s.length ≤ if sees then MAX_IMAGES_PER_REQUEST else 0) (historyImages history)
        (historyImages out) ∧
      (out.map fun h => (h.role, h.content)) = history.map fun h => (h.role, h.content) := by
  have hrev : ∀ l : List History.Msg, revHistoryImages l.reverse = (historyImages l).reverse := by
    intro l
    rw [historyImages, List.reverse_flatMap]
    rfl
  rcases boundFrom_spec (if sees then MAX_IMAGES_PER_REQUEST else 0) history.reverse with ⟨out, hout, himages, hfields⟩
  refine ⟨out.reverse, ?_, ?_, ?_⟩
  · rw [boundImages, hout]
    rfl
  · have hkept : historyImages out.reverse =
        ((historyImages history).reverse.take (if sees then MAX_IMAGES_PER_REQUEST else 0)).reverse := by
      rw [← hrev, ← himages, ← List.reverse_inj, ← hrev, List.reverse_reverse, List.reverse_reverse]
    rw [hkept]
    exact Budget.longest_take _ _
  · rw [List.map_reverse, hfields, ← List.map_reverse, List.reverse_reverse]

/-- What the page keeps, whatever its messages and images are, and what the model gets: the longest
end of all images within the bounds, and nothing but images changes. -/
theorem images_newest :
    (∀ (F α : Type) (size : α → Nat) (max budget : Option Int) (msgs : List (Message F α)),
      LongestEnd (Fits size max budget) (imagesOf msgs) (imagesOf (recentImages size budget max msgs)) ∧
        (recentImages size budget max msgs).map Message.fields = msgs.map Message.fields) ∧
      ∀ (history : List History.Msg) (sees : Bool), ∃ out, boundImages history sees = some out ∧
        LongestEnd (fun s => s.length ≤ if sees then MAX_IMAGES_PER_REQUEST else 0) (historyImages history)
          (historyImages out) ∧
        (out.map fun h => (h.role, h.content)) = history.map fun h => (h.role, h.content) :=
  ⟨fun _ _ _ max _ msgs => recentImages_spec max msgs, boundImages_spec⟩

example :
    (recentImages String.length (some 5) none
      [⟨(), some ["aaaa", "b"]⟩, ⟨(), none⟩, ⟨(), some ["cc", "dd"]⟩] : List (Message Unit String)) =
      [⟨(), some ["b"]⟩, ⟨(), none⟩, ⟨(), some ["cc", "dd"]⟩] := by
  decide

end Portal.Images
