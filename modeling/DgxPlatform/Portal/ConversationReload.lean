import DgxPlatform.Portal.ConversationTrim
import DgxPlatform.Portal.FileLists

/-! # Saving a reloaded conversation

A conversation is loaded as it was stored and saved again. The roles, the texts, the flags,
the thinking and the images of a stored message are stored again as they are; its files
are, unless a name was cut behind white space.
-/

namespace Portal.Conversations

open FileLists (CutAtSpace)

/-- The text of a name that is there. -/
def nameText (v : Json) : List Char := pyStr (some v)

theorem parseFilesFrom_eq (files : List NamedFile) (total : Nat) (list : List Json) :
    parseFilesFrom files total list =
      FileLists.parseFrom Text.isWhitespace nameText files total list := by
  have hname : ∀ fields : List (String × Json),
      Text.trim (pyStr ((fields.lookup "name").filter truthy)) =
        FileLists.rawName Text.isWhitespace nameText fields := by
    intro fields
    unfold FileLists.rawName
    cases (fields.lookup "name").filter truthy <;> rfl
  induction list generalizing files total with
  | nil => rfl
  | cons x rest ih =>
    cases x with
    | obj fields =>
      simp only [parseFilesFrom, FileLists.parseFrom, hname, ih]
      rfl
    | null => exact ih files total
    | bool b => exact ih files total
    | num n => exact ih files total
    | str s => exact ih files total
    | arr xs => exact ih files total

theorem parseFiles_eq (v : Option Json) : parseFiles v = FileLists.parse Text.isWhitespace nameText v := by
  cases v with
  | none => rfl
  | some v =>
    cases v with
    | arr list => exact parseFilesFrom_eq [] 0 _
    | null => rfl
    | bool b => rfl
    | num n => rfl
    | str s => rfl
    | obj fields => rfl

/-- The files that an assistant message brings, names uncut. -/
def broughtFiles (m : Json) : List NamedFile :=
  FileLists.acceptedOf Text.isWhitespace nameText (m.get? "fileEdits")

def roleOf (m : Json) : List Char := ((m.get? "role").bind Json.str?).getD []

/-- No file of an assistant message has white space as the last character of its cut name. -/
def Settled (m : Json) : Prop :=
  roleOf m = "assistant".toList → ∀ f ∈ broughtFiles m, ¬ CutAtSpace Text.isWhitespace f.1

/-! ## One message -/

section Message

variable {m : Json} {fields : List (String × Json)} {key : String}

def flags : List String := ["hidden", "isError", "truncated", "pending"]

/-- The flag as the stored form keeps it. -/
def keptFlag (m : Json) (flag : String) : Option Json :=
  if (m.get? flag).any truthy then some (.bool true) else none

theorem flagFields_eq (m : Json) :
    flagFields m = flags.flatMap fun flag => Json.optional flag (keptFlag m flag) := rfl

theorem lookup_flagFields_of_notMem (m : Json) (h : key ∉ flags) : (flagFields m).lookup key = none := by
  simp only [flags, List.mem_cons, List.not_mem_nil, or_false, not_or] at h
  obtain ⟨h1, h2, h3, h4⟩ := h
  simp [flagFields_eq, flags, List.lookup_append, Json.lookup_optional_ne, h1, h2, h3, h4]

theorem lookup_flagFields (m : Json) {flag : String} (h : flag ∈ flags) :
    (flagFields m).lookup flag = keptFlag m flag := by
  simp only [flags, List.mem_cons, List.not_mem_nil, or_false] at h
  rcases h with rfl | rfl | rfl | rfl <;>
    simp [flagFields_eq, flags, List.lookup_append, Json.lookup_optional_ne]

/-- A message with a role, a content, its flags and other fields. -/
def item (role content : List Char) (m : Json) (extra : List (String × Json)) : Json :=
  .obj ([("role", .str role), ("content", .str content)] ++ flagFields m ++ extra)

variable {role content : List Char} {extra : List (String × Json)}

theorem get?_item_content : (item role content m extra).get? "content" = some (.str content) := rfl

theorem lookup_header (hrole : key ≠ "role") (hcontent : key ≠ "content") :
    [("role", Json.str role), ("content", .str content)].lookup key = none := by
  have h1 : (key == "role") = false := beq_false_of_ne hrole
  have h2 : (key == "content") = false := beq_false_of_ne hcontent
  simp only [List.lookup_cons, h1, h2, List.lookup_nil]

theorem get?_item_flag {flag : String} (h : flag ∈ flags) (hextra : extra.lookup flag = none) :
    (item role content m extra).get? flag = keptFlag m flag := by
  have hrole : flag ≠ "role" := by
    rintro rfl
    exact absurd h (by decide)
  have hcontent : flag ≠ "content" := by
    rintro rfl
    exact absurd h (by decide)
  rw [item, Json.get?_obj, List.append_assoc, List.lookup_append, List.lookup_append, hextra,
    lookup_flagFields m h, lookup_header hrole hcontent, Option.none_or, Option.or_none]

theorem get?_item_extra (hrole : key ≠ "role") (hcontent : key ≠ "content") (hflag : key ∉ flags) :
    (item role content m extra).get? key = extra.lookup key := by
  rw [item, Json.get?_obj, List.append_assoc, List.lookup_append, List.lookup_append,
    lookup_flagFields_of_notMem m hflag, lookup_header hrole hcontent, Option.none_or, Option.none_or]

theorem flagFields_item (hextra : ∀ flag ∈ flags, extra.lookup flag = none) :
    flagFields (item role content m extra) = flagFields m := by
  rw [flagFields_eq, flagFields_eq]
  refine List.flatMap_congr fun flag hflag => ?_
  have hkept : keptFlag (item role content m extra) flag = keptFlag m flag := by
    show (if ((item role content m extra).get? flag).any truthy then _ else none) = keptFlag m flag
    rw [get?_item_flag hflag (hextra flag hflag), keptFlag]
    by_cases htrue : (m.get? flag).any truthy = true
    · rw [if_pos htrue]
      rfl
    · rw [if_neg htrue]
      rfl
  rw [hkept]

theorem storedMessage_item (hrole : role = "user".toList ∨ role = "assistant".toList)
    (hcontent : content.length ≤ MSG_MAX_CHARS) (hextra : ∀ flag ∈ flags, extra.lookup flag = none) :
    storedMessage (item role content m extra) =
      some (item role content m (if role = "assistant".toList
        then assistantFields (item role content m extra) else userFields (item role content m extra))) := by
  have htake : (pyStr (some (((item role content m extra).get? "content").getD (.str [])))).take
      MSG_MAX_CHARS = content := by
    rw [get?_item_content]
    exact List.take_of_length_le hcontent
  have hroleOf : (((item role content m extra).get? "role").bind Json.str?).getD [] = role := rfl
  show (if _ ∨ _ then _ else none) = _
  rw [hroleOf, if_pos hrole, flagFields_item hextra, htake]
  rfl

/-! ### The thinking, the files and the images -/

def reasoningField (m : Json) : Option Json :=
  let reasoning := (pyStr (m.get? "reasoning")).take MSG_MAX_CHARS
  if reasoning.isEmpty then none else some (.str reasoning)

def editsField (m : Json) : Option Json :=
  let edits := parseFiles (m.get? "fileEdits")
  if edits.isEmpty then none else some (FileLists.toJson edits)

def imagesField (m : Json) : Option Json :=
  let imgs := validImages (m.get? "images")
  if imgs.isEmpty then none else some (.arr (imgs.map .str))

theorem assistantFields_eq (m : Json) : assistantFields m =
    Json.optional "reasoning" (reasoningField m) ++ Json.optional "fileEdits" (editsField m) := rfl

theorem userFields_eq (m : Json) : userFields m = Json.optional "images" (imagesField m) := rfl

theorem assistantFields_flag (m : Json) : ∀ flag ∈ flags, (assistantFields m).lookup flag = none := by
  intro flag hflag
  have hreasoning : flag ≠ "reasoning" := by
    rintro rfl
    exact absurd hflag (by decide)
  have hedits : flag ≠ "fileEdits" := by
    rintro rfl
    exact absurd hflag (by decide)
  rw [assistantFields_eq, List.lookup_append, Json.lookup_optional_ne hreasoning,
    Json.lookup_optional_ne hedits, Option.or_none]

theorem userFields_flag (m : Json) : ∀ flag ∈ flags, (userFields m).lookup flag = none := by
  intro flag hflag
  refine Json.lookup_optional_ne ?_ _
  rintro rfl
  exact absurd hflag (by decide)

theorem reasoningField_item (m' : Json) :
    reasoningField (item role content m (assistantFields m')) = reasoningField m' := by
  have hget : (item role content m (assistantFields m')).get? "reasoning" = reasoningField m' := by
    rw [get?_item_extra (by decide) (by decide) (by decide), assistantFields_eq, List.lookup_append,
      Json.lookup_optional_self, Json.lookup_optional_ne (by decide), Option.or_none]
  rw [reasoningField, hget]
  unfold reasoningField
  dsimp only
  set t := (pyStr (m'.get? "reasoning")).take MSG_MAX_CHARS with ht
  have hlen : t.length ≤ MSG_MAX_CHARS := List.length_take_le _ _
  clear_value t
  by_cases hempty : t.isEmpty = true
  · rw [if_pos hempty]
    rfl
  · have hagain : (pyStr (some (.str t))).take MSG_MAX_CHARS = t := List.take_of_length_le hlen
    rw [if_neg hempty, hagain, if_neg hempty]

theorem toJson_inj {e e' : List NamedFile} (h : FileLists.toJson e = FileLists.toJson e') : e = e' := by
  refine List.map_injective_iff.2 ?_ (Json.arr.inj h)
  intro f g hfg
  have hfields := Json.obj.inj hfg
  simp only [List.cons.injEq, Prod.mk.injEq, Json.str.injEq, true_and, and_true] at hfields
  exact Prod.ext hfields.1 hfields.2

theorem editsField_item_iff (m' : Json) :
    editsField (item role content m (assistantFields m')) = editsField m' ↔
      ∀ f ∈ broughtFiles m', ¬ CutAtSpace Text.isWhitespace f.1 := by
  have hget : (item role content m (assistantFields m')).get? "fileEdits" = editsField m' := by
    rw [get?_item_extra (by decide) (by decide) (by decide), assistantFields_eq, List.lookup_append,
      Json.lookup_optional_self, Json.lookup_optional_ne (by decide), Option.none_or]
  rw [broughtFiles, ← FileLists.parse_parse_iff (fun _ => rfl), ← parseFiles_eq, ← parseFiles_eq,
    editsField, hget]
  unfold editsField
  dsimp only
  generalize parseFiles (m'.get? "fileEdits") = e
  by_cases hempty : e.isEmpty = true
  · obtain rfl := List.isEmpty_iff.1 hempty
    exact ⟨fun _ => rfl, fun _ => rfl⟩
  · rw [if_neg hempty]
    constructor
    · intro h
      split_ifs at h
      exact toJson_inj (Option.some.inj h)
    · intro h
      rw [h, if_neg hempty]

theorem validImages_again (v : Option Json) :
    validImages (some (.arr ((validImages v).map .str))) = validImages v := by
  have hcount : (validImages v).length ≤ IMAGES_PER_MESSAGE := by
    unfold validImages
    split
    · refine Nat.le_trans (List.length_filter_le _ _) ?_
      exact Nat.le_trans (List.length_filterMap_le _ _) (List.length_take_le _ _)
    · exact Nat.zero_le _
  have hvalid : ∀ u ∈ validImages v, (u.length ≤ IMAGE_MAX_CHARS && isImageDataUrl u) = true := by
    intro u hu
    unfold validImages at hu
    split at hu
    · exact (List.mem_filter.1 hu).2
    · cases hu
  show ((((validImages v).map Json.str).take IMAGES_PER_MESSAGE).filterMap Json.str?).filter _ = _
  have htext : ∀ l : List (List Char), (l.map Json.str).filterMap Json.str? = l := by
    intro l
    rw [List.filterMap_map]
    exact List.filterMap_some
  rw [List.take_of_length_le (by rw [List.length_map]; exact hcount), htext]
  exact List.filter_eq_self.2 hvalid

theorem imagesField_item (m' : Json) :
    imagesField (item role content m (userFields m')) = imagesField m' := by
  have hget : (item role content m (userFields m')).get? "images" = imagesField m' := by
    rw [get?_item_extra (by decide) (by decide) (by decide), userFields_eq, Json.lookup_optional_self]
  rw [imagesField, hget]
  unfold imagesField
  dsimp only
  by_cases hempty : (validImages (m'.get? "images")).isEmpty = true
  · rw [if_pos hempty]
    rfl
  · rw [if_neg hempty, validImages_again, if_neg hempty]

/-! ### The stored form of a stored form -/

def storedContent (m : Json) : List Char :=
  (pyStr (some ((m.get? "content").getD (.str [])))).take MSG_MAX_CHARS

theorem storedMessage_obj (fields : List (String × Json)) :
    storedMessage (.obj fields) =
      if roleOf (.obj fields) = "user".toList ∨ roleOf (.obj fields) = "assistant".toList then
        some (item (roleOf (.obj fields)) (storedContent (.obj fields)) (.obj fields)
          (if roleOf (.obj fields) = "assistant".toList then assistantFields (.obj fields)
            else userFields (.obj fields)))
      else none := rfl

theorem storedMessage_eq_some {stored : Json} (h : storedMessage m = some stored) :
    (roleOf m = "user".toList ∨ roleOf m = "assistant".toList) ∧
      ∃ content, content.length ≤ MSG_MAX_CHARS ∧
        stored = item (roleOf m) content m
          (if roleOf m = "assistant".toList then assistantFields m else userFields m) := by
  cases m with
  | obj fields =>
    rw [storedMessage_obj] at h
    by_cases hrole : roleOf (.obj fields) = "user".toList ∨ roleOf (.obj fields) = "assistant".toList
    · rw [if_pos hrole] at h
      exact ⟨hrole, storedContent (.obj fields), List.length_take_le _ _, (Option.some.inj h).symm⟩
    · rw [if_neg hrole] at h
      cases h
  | null => cases h
  | bool b => cases h
  | num n => cases h
  | str s => cases h
  | arr xs => cases h

theorem exists_storedMessage (h : roleOf m = "assistant".toList) :
    ∃ stored, storedMessage m = some stored := by
  have hempty : ¬ ([] : List Char) = "assistant".toList := by decide
  cases m with
  | obj fields =>
    rw [storedMessage_obj, if_pos (.inr h)]
    exact ⟨_, rfl⟩
  | null => exact absurd h hempty
  | bool b => exact absurd h hempty
  | num n => exact absurd h hempty
  | str s => exact absurd h hempty
  | arr xs => exact absurd h hempty

theorem item_inj {extra extra' : List (String × Json)} :
    item role content m extra = item role content m extra' ↔ extra = extra' := by
  simp only [item, Json.obj.injEq, List.append_cancel_left_eq]

theorem optional_inj {v v' : Option Json} : Json.optional key v = Json.optional key v' ↔ v = v' := by
  cases v <;> cases v' <;> simp [Json.optional]

variable {stored : Json}

theorem extra_flag (m : Json) (p : Prop) [Decidable p] :
    ∀ flag ∈ flags, (if p then assistantFields m else userFields m).lookup flag = none := by
  intro flag hflag
  split
  · exact assistantFields_flag m flag hflag
  · exact userFields_flag m flag hflag

/-- A stored message is its own stored form exactly if its files are settled. -/
theorem storedMessage_storedMessage_iff (h : storedMessage m = some stored) :
    storedMessage stored = some stored ↔ Settled m := by
  obtain ⟨hrole, content, hlen, rfl⟩ := storedMessage_eq_some h
  rw [storedMessage_item hrole hlen (extra_flag m _), Option.some.injEq, item_inj]
  by_cases hassistant : roleOf m = "assistant".toList
  · rw [if_pos hassistant, if_pos hassistant, assistantFields_eq, reasoningField_item]
    have hsettled : Settled m ↔ ∀ f ∈ broughtFiles m, ¬ CutAtSpace Text.isWhitespace f.1 :=
      ⟨fun hs => hs hassistant, fun hs _ => hs⟩
    rw [hsettled, ← editsField_item_iff, assistantFields_eq m, List.append_cancel_left_eq,
      optional_inj, ← assistantFields_eq]
  · rw [if_neg hassistant, if_neg hassistant, userFields_eq, imagesField_item, ← userFields_eq]
    exact ⟨fun _ hrole => absurd hrole hassistant, fun _ => rfl⟩

end Message

/-! ## The whole conversation -/

section Whole

variable {messages : List Json}

theorem dumpedLength_suffix {s l : List Json} (h : s <:+ l) (hs : s ≠ []) :
    dumpedLength s ≤ dumpedLength l := by
  induction l with
  | nil => exact absurd (List.suffix_nil.1 h) hs
  | cons m l ih =>
    rcases List.suffix_cons_iff.1 h with rfl | htail
    · exact Nat.le_refl _
    · cases l with
      | nil => exact absurd (List.suffix_nil.1 htail) hs
      | cons m' l =>
        rw [dumpedLength_cons_cons]
        exact Nat.le_trans (ih htail) (Nat.le_add_left _ _)

/-- The messages stay after both cuts: their stored forms are at most 60, and fit the
budget unless there is only one. -/
def Remains (messages : List Json) : Prop :=
  let stored := messages.filterMap storedMessage
  stored.length ≤ 60 ∧ (dumpedLength stored ≤ CONV_MAX_CHARS ∨ stored.length ≤ 1)

theorem suffix_drop_iff {s l : List Json} {n : Nat} :
    s <:+ l.drop (l.length - n) ↔ s <:+ l ∧ s.length ≤ n := by
  constructor
  · intro h
    refine ⟨h.trans (List.drop_suffix _ _), ?_⟩
    have hlen := h.length_le
    rw [List.length_drop] at hlen
    omega
  · rintro ⟨hsuffix, hlen⟩
    refine List.suffix_of_suffix_length_le hsuffix (List.drop_suffix _ _) ?_
    have := hsuffix.length_le
    rw [List.length_drop]
    omega

theorem suffix_kept_iff {s : List Json} (hs : s ≠ []) :
    s <:+ kept messages ↔ s <:+ messages.filterMap storedMessage ∧ s.length ≤ 60 ∧
      (dumpedLength s ≤ CONV_MAX_CHARS ∨ s.length ≤ 1) := by
  rw [kept, trimToBudget_eq, Budget.suffix_trim_iff (fun _ _ => dumpedLength_suffix) hs, storedMessages,
    suffix_drop_iff, and_assoc]

theorem mem_kept_iff {stored : Json} :
    stored ∈ kept messages ↔ ∃ before m after, messages = before ++ m :: after ∧
      Remains (m :: after) ∧ storedMessage m = some stored := by
  constructor
  · intro h
    obtain ⟨p, q, hpq⟩ := List.append_of_mem h
    have hsuffix : stored :: q <:+ kept messages := ⟨p, hpq.symm⟩
    obtain ⟨⟨t, ht⟩, hremains⟩ := (suffix_kept_iff (List.cons_ne_nil _ _)).1 hsuffix
    obtain ⟨before, rest, rfl, -, hrest⟩ := List.filterMap_eq_append_iff.1 ht.symm
    obtain ⟨skipped, m, after, rfl, hnone, hm, hafter⟩ := List.filterMap_eq_cons_iff.1 hrest
    refine ⟨before ++ skipped, m, after, by rw [List.append_assoc], ?_, hm⟩
    unfold Remains
    rw [List.filterMap_cons_some hm, hafter]
    exact hremains
  · rintro ⟨before, m, after, rfl, hremains, hm⟩
    unfold Remains at hremains
    rw [List.filterMap_cons_some hm] at hremains
    have hsuffix : stored :: after.filterMap storedMessage <:+
        kept (before ++ m :: after) := by
      refine (suffix_kept_iff (List.cons_ne_nil _ _)).2 ⟨?_, hremains⟩
      rw [List.filterMap_append, List.filterMap_cons_some hm]
      exact List.suffix_append _ _
    exact hsuffix.mem List.mem_cons_self

theorem length_kept_le (messages : List Json) : (kept messages).length ≤ 60 := by
  cases hk : kept messages with
  | nil => exact Nat.zero_le _
  | cons m rest =>
    rw [← hk]
    exact ((suffix_kept_iff (by rw [hk]; exact List.cons_ne_nil _ _)).1 (List.suffix_refl _)).2.1

/-- A list with at most 60 messages that are all stored again loses none before the budget. -/
theorem storedMessages_of_length_le (h : messages.length ≤ 60) :
    storedMessages messages = messages.filterMap storedMessage := by
  have hlen : (messages.filterMap storedMessage).length - 60 = 0 := by
    have := List.length_filterMap_le storedMessage messages
    omega
  unfold storedMessages
  dsimp only
  rw [hlen, List.drop_zero]

theorem forall_of_filterMap_eq_self {α : Type} {f : α → Option α} {l : List α}
    (h : l.filterMap f = l) : ∀ x ∈ l, f x = some x := by
  induction l with
  | nil => exact List.forall_mem_nil _
  | cons x l ih =>
    cases hx : f x with
    | none =>
      rw [List.filterMap_cons_none hx] at h
      have hlen := List.length_filterMap_le f l
      rw [h, List.length_cons] at hlen
      omega
    | some y =>
      rw [List.filterMap_cons_some hx] at h
      obtain ⟨hy, hrest⟩ := List.cons.inj h
      exact List.forall_mem_cons.2 ⟨by rw [hx, hy], ih hrest⟩

theorem kept_kept_iff_forall (messages : List Json) :
    kept (kept messages) = kept messages ↔
      ∀ stored ∈ kept messages, storedMessage stored = some stored := by
  have hkept : kept (kept messages) = trimToBudget ((kept messages).filterMap storedMessage) := by
    rw [kept, storedMessages_of_length_le (length_kept_le messages)]
  constructor
  · intro h
    have hlen : ((kept messages).filterMap storedMessage).length ≤ (kept messages).length :=
      List.length_filterMap_le _ _
    have hsuffix : kept messages <:+ (kept messages).filterMap storedMessage := by
      have hspec := (Budget.longest_trim dumpedLength CONV_MAX_CHARS
        ((kept messages).filterMap storedMessage)).suffix
      rwa [← trimToBudget_eq, ← hkept, h] at hspec
    exact forall_of_filterMap_eq_self (hsuffix.eq_of_length_le hlen).symm
  · intro h
    have hsame : (kept messages).filterMap storedMessage = kept messages := by
      refine (List.filterMap_congr h).trans ?_
      exact List.filterMap_some
    rw [hkept, hsame, trimToBudget_eq]
    refine Budget.trim_eq_self ?_
    rw [kept, trimToBudget_eq]
    exact (Budget.longest_trim dumpedLength CONV_MAX_CHARS (storedMessages messages)).fits

/-- What is loaded and saved again is stored as it was exactly if every message that stays
is settled. -/
theorem kept_kept_iff (messages : List Json) :
    kept (kept messages) = kept messages ↔
      ∀ before m after, messages = before ++ m :: after → Remains (m :: after) → Settled m := by
  rw [kept_kept_iff_forall]
  constructor
  · intro h before m after hsplit hremains hassistant
    obtain ⟨stored, hstored⟩ := exists_storedMessage hassistant
    have hmem : stored ∈ kept messages := mem_kept_iff.2 ⟨before, m, after, hsplit, hremains, hstored⟩
    exact (storedMessage_storedMessage_iff hstored).1 (h stored hmem) hassistant
  · intro h stored hmem
    obtain ⟨before, m, after, hsplit, hremains, hstored⟩ := mem_kept_iff.1 hmem
    exact (storedMessage_storedMessage_iff hstored).2 (h before m after hsplit hremains)

/-- An assistant message with one empty file; the 200th character of the file's name is a
space and a letter stands behind it. -/
def spacedName : Json :=
  .obj [("role", .str "assistant".toList), ("content", .str []),
    ("fileEdits", .arr [.obj [("name", .str (List.replicate 199 'a' ++ " b".toList)),
      ("content", .str [])]])]

/-- The stored name ends with the space, and the second save drops it. -/
theorem kept_kept_spacedName :
    kept (kept [spacedName]) ≠ kept [spacedName] ∧
      ¬ ∀ messages, kept (kept messages) = kept messages := by
  have hlen : dumpedLength (kept [spacedName]) = 282 ∧
      dumpedLength (kept (kept [spacedName])) = 281 := by decide +kernel
  have hne : kept (kept [spacedName]) ≠ kept [spacedName] := by
    intro h
    rw [h] at hlen
    omega
  exact ⟨hne, fun h => hne (h [spacedName])⟩

end Whole

end Portal.Conversations
