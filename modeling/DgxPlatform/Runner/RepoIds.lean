import DgxPlatform.Runner.LaunchRequest
import Mathlib.Data.String.Basic

/-! # One repository id, three checks

A download takes an id that passes `valid_repo`, a launch one of the shapes of
`model_id_shape_ok`, and the deletion of the files one of `hf_shape` without a `..`. All
three read `owner/name` over the same characters. The download bounds the whole and refuses
a `..`; the shapes bound each part and ask for a letter or a digit at its start. They agree
on an id exactly where the one condition comes with the other (`checks_agree_iff`).
-/

namespace Runner

open Download (validRepo repoChar)
open Launching (acceptsId)

/-- An id of the form `owner/name`. -/
structure RepoParts (r : String) (owner name : List Char) : Prop where
  text : r.toList = owner ++ '/' :: name
  owner_ne : owner ≠ []
  name_ne : name ≠ []
  chars : ∀ c ∈ owner ++ name, repoChar c = true

/-- The id has no `..`. -/
def NoDots (r : String) : Prop := Text.contains r.toList "..".toList = false

/-- A part of at most `n` characters that begins with a letter or a digit. -/
def WellBegun (n : Nat) (part : List Char) : Prop :=
  part.length ≤ n ∧ ∀ c ∈ part.head?, c.isAlphanum = true

section Parts

variable {r : String} {owner name : List Char} {c : Char}

theorem repoChar_ne (h : repoChar c = true) : c ≠ '/' ∧ c ≠ ':' ∧ c ≠ '\\' := by
  refine ⟨?_, ?_, ?_⟩ <;>
    · rintro rfl
      exact absurd h (by decide)

theorem utf8Size_of_repoChar (h : repoChar c = true) : c.utf8Size = 1 := by
  have hn : c.toNat ≤ 127 := by
    simp only [repoChar, Bool.or_eq_true, beq_iff_eq] at h
    rcases h with ((halnum | rfl) | rfl) | rfl
    · have := Text.toNat_of_isAlphanum halnum
      omega
    · decide
    · decide
    · decide
  exact Char.utf8Size_eq_one_iff.2 (UInt32.le_iff_toNat_le.2 hn)

theorem utf8Len_of_repoChar {cs : List Char} (h : ∀ c ∈ cs, c.utf8Size = 1) :
    String.utf8Len cs = cs.length := by
  induction cs with
  | nil => rfl
  | cons c cs ih =>
    obtain ⟨hc, hcs⟩ := List.forall_mem_cons.1 h
    rw [String.utf8Len_cons, ih hcs, hc, List.length_cons]

theorem RepoParts.size (h : RepoParts r owner name) :
    r.utf8ByteSize = owner.length + name.length + 1 := by
  have hone : ∀ c ∈ r.toList, c.utf8Size = 1 := by
    intro c hc
    rw [h.text] at hc
    rcases List.mem_append.1 hc with hmem | hmem
    · exact utf8Size_of_repoChar (h.chars c (List.mem_append_left _ hmem))
    · rcases List.mem_cons.1 hmem with rfl | hmem
      · decide
      · exact utf8Size_of_repoChar (h.chars c (List.mem_append_right _ hmem))
  rw [← String.ofList_toList (s := r), String.utf8ByteSize_ofList, utf8Len_of_repoChar hone, h.text,
    List.length_append, List.length_cons]
  omega

theorem RepoParts.slash (h : RepoParts r owner name) : '/' ∉ owner ∧ '/' ∉ name := by
  constructor
  · intro hmem
    exact (repoChar_ne (h.chars '/' (List.mem_append_left _ hmem))).1 rfl
  · intro hmem
    exact (repoChar_ne (h.chars '/' (List.mem_append_right _ hmem))).1 rfl

theorem RepoParts.split (h : RepoParts r owner name) : r.toList.splitOn '/' = [owner, name] := by
  rw [h.text, List.splitOn_append_cons_self_of_not_mem h.slash.1,
    List.splitOn_eq_singleton h.slash.2]

theorem exists_of_split (h : (r.toList.splitOn '/').length = 2) :
    ∃ owner name, r.toList.splitOn '/' = [owner, name] ∧ r.toList = owner ++ '/' :: name := by
  match hsplit : r.toList.splitOn '/', h with
  | [owner, name], _ =>
    have hjoin : ['/'].intercalate (r.toList.splitOn '/') = r.toList := List.intercalate_splitOn '/'
    rw [hsplit] at hjoin
    exact ⟨owner, name, rfl, by simpa [List.intercalate] using hjoin.symm⟩

/-! ## Each check by the parts -/

theorem validRepo_iff (h : RepoParts r owner name) :
    validRepo r = true ↔ r.utf8ByteSize ≤ 160 ∧ NoDots r := by
  have hpos := List.length_pos_of_ne_nil h.owner_ne
  have hpos' := List.length_pos_of_ne_nil h.name_ne
  have hhead : r.toList.head? ≠ some '/' := by
    cases howner : owner with
    | nil => exact absurd howner h.owner_ne
    | cons c t =>
      rw [h.text, howner]
      intro hc
      exact h.slash.1 (by rw [howner, ← Option.some.inj hc]; exact List.mem_cons_self)
  have hlast : r.toList.getLast? ≠ some '/' := by
    intro hc
    rw [h.text, List.getLast?_append_of_ne_nil _ (List.cons_ne_nil _ _),
      List.getLast?_cons_of_ne_nil h.name_ne] at hc
    exact h.slash.2 (List.mem_of_getLast? hc)
  have hback : r.toList.contains '\\' = false := by
    rw [List.contains_eq_mem, decide_eq_false_iff_not, h.text]
    intro hmem
    rcases List.mem_append.1 hmem with hl | hr
    · exact (repoChar_ne (h.chars _ (List.mem_append_left _ hl))).2.2 rfl
    · rcases List.mem_cons.1 hr with heq | hr
      · exact absurd heq (by decide)
      · exact (repoChar_ne (h.chars _ (List.mem_append_right _ hr))).2.2 rfl
  have hall : [owner, name].all (fun part => !part.isEmpty && part.all repoChar) = true := by
    have howner : owner.all repoChar = true :=
      List.all_eq_true.2 fun c hc => h.chars c (List.mem_append_left _ hc)
    have hname : name.all repoChar = true :=
      List.all_eq_true.2 fun c hc => h.chars c (List.mem_append_right _ hc)
    simp [howner, hname, h.owner_ne, h.name_ne]
  unfold validRepo NoDots
  dsimp only
  rw [h.split, hall, hback, h.size]
  by_cases hlong : owner.length + name.length + 1 ≤ 160
  · have hshort : ¬ owner.length + name.length + 1 < 3 := by omega
    simp [hhead, hlast, hlong, hshort, Nat.not_lt.2 hlong]
  · simp [hlong, Nat.lt_of_not_le hlong]

theorem exists_of_validRepo (h : validRepo r = true) : ∃ owner name, RepoParts r owner name := by
  unfold validRepo at h
  dsimp only at h
  split_ifs at h with hsize hshape
  have hlen : (r.toList.splitOn '/').length = 2 := by
    by_contra hne
    exact hshape (by simp [hne])
  obtain ⟨owner, name, hsplit, htext⟩ := exists_of_split hlen
  rw [hsplit] at h
  simp only [List.all_cons, List.all_nil, Bool.and_true, Bool.and_eq_true, Bool.not_eq_true',
    List.isEmpty_eq_false_iff, List.all_eq_true] at h
  refine ⟨owner, name, htext, h.1.1, h.2.1, ?_⟩
  intro c hc
  rcases List.mem_append.1 hc with hl | hr
  · exact h.1.2 c hl
  · exact h.2.2 c hr

theorem nameShape_iff {n : Nat} {part : List Char} (hne : part ≠ [])
    (h : ∀ c ∈ part, repoChar c = true) : nameShape n part = true ↔ WellBegun (n + 1) part := by
  cases part with
  | nil => exact absurd rfl hne
  | cons c t =>
    have hall : t.all repoChar = true :=
      List.all_eq_true.2 fun d hd => h d (List.mem_cons_of_mem c hd)
    simp only [nameShape, hall, Bool.and_true, Bool.and_eq_true, decide_eq_true_eq, WellBegun,
      List.length_cons, List.head?_cons, Option.mem_some_iff, forall_eq', Nat.add_le_add_iff_right]
    exact And.comm

theorem hfShape_iff (h : RepoParts r owner name) :
    hfShape r = true ↔ WellBegun 61 owner ∧ WellBegun 81 name := by
  have howner := nameShape_iff (n := 60) h.owner_ne fun c hc => h.chars c (List.mem_append_left _ hc)
  have hname := nameShape_iff (n := 80) h.name_ne fun c hc => h.chars c (List.mem_append_right _ hc)
  rw [hfShape, h.text, Text.splitOnce_singleton h.slash.1]
  simp only [Bool.and_eq_true, howner, hname]

theorem exists_of_hfShape (h : hfShape r = true) : ∃ owner name, RepoParts r owner name := by
  unfold hfShape at h
  split at h
  · next owner name hsplit =>
      have htext := Text.splitOnce_eq_some hsplit
      rw [List.append_assoc, List.singleton_append] at htext
      obtain ⟨howner, hname⟩ := (Bool.and_eq_true _ _).mp h
      have hpart : ∀ {n : Nat} {part : List Char}, nameShape n part = true →
          part ≠ [] ∧ ∀ c ∈ part, repoChar c = true := by
        intro n part hpart
        cases part with
        | nil => cases hpart
        | cons c t =>
          simp only [nameShape, Bool.and_eq_true] at hpart
          refine ⟨List.cons_ne_nil c t, List.forall_mem_cons.2 ⟨?_, List.all_eq_true.1 hpart.1.2⟩⟩
          simp [repoChar, hpart.1.1]
      refine ⟨owner, name, htext, (hpart howner).1, (hpart hname).1, ?_⟩
      intro c hc
      rcases List.mem_append.1 hc with hl | hr
      · exact (hpart howner).2 c hl
      · exact (hpart hname).2 c hr
  · cases h

theorem localName_eq_none (h : RepoParts r owner name) : localName r = none := by
  have hcolon : ':' ∉ r.toList := by
    rw [h.text]
    intro hmem
    rcases List.mem_append.1 hmem with hl | hr
    · exact (repoChar_ne (h.chars _ (List.mem_append_left _ hl))).2.1 rfl
    · rcases List.mem_cons.1 hr with heq | hr
      · exact absurd heq (by decide)
      · exact (repoChar_ne (h.chars _ (List.mem_append_right _ hr))).2.1 rfl
  have hstart : ¬ "local:".toList.isPrefixOf r.toList = true := by
    intro hpre
    exact hcolon ((List.isPrefixOf_iff_prefix.1 hpre).subset (by decide))
  rw [localName, stripPrefix, if_neg hstart]
  rfl

theorem notMem_dots (h : RepoParts r owner name) (hdots : NoDots r) :
    (r.toList.splitOn '/').contains "..".toList = false := by
  have hinfix : ¬ "..".toList <:+: r.toList := by
    simpa [NoDots, Text.contains] using hdots
  rw [h.split, List.contains_eq_mem, decide_eq_false_iff_not]
  intro hmem
  refine hinfix ?_
  rw [h.text]
  rcases List.mem_cons.1 hmem with heq | hmem
  · rw [heq]
    exact (List.prefix_append owner _).isInfix
  · rw [List.mem_singleton.1 hmem]
    exact ((List.suffix_cons '/' name).trans (List.suffix_append owner _)).isInfix

theorem acceptsId_of (h : RepoParts r owner name) (hdots : NoDots r) (hshape : hfShape r = true) :
    acceptsId r.toList = true := by
  have hne : r.toList ≠ [] := by
    rw [h.text]
    simp
  have hid : modelIdShapeOk r = true := by
    rw [modelIdShapeOk, hshape]
    rfl
  rw [acceptsId, String.ofList_toList, hid, notMem_dots h hdots]
  simp [hne]

theorem deleteRequest_iff (h : RepoParts r owner name) :
    deleteRequest r = .ok ⟨"hf", r⟩ ↔ hfShape r = true ∧ NoDots r := by
  rw [deleteRequest, localName_eq_none h]
  dsimp only
  by_cases hshape : hfShape r = true
  · rw [if_pos hshape]
    dsimp only
    have hnodots : NoDots r ↔ ¬ Text.contains r.toList "..".toList = true :=
      (Bool.not_eq_true _).symm ▸ Iff.rfl
    rw [hnodots]
    generalize Text.contains r.toList "..".toList = dots
    cases dots <;> simp [hshape]
  · rw [if_neg hshape]
    simp [hshape]

/-! ## The three together -/

/-- What can be downloaded can be launched and deleted, and what the first shape of a launch
takes within the bound can be downloaded and deleted. -/
structure Agree (r : String) : Prop where
  downloaded : validRepo r = true → acceptsId r.toList = true ∧ deleteRequest r = .ok ⟨"hf", r⟩
  launched : hfShape r = true → r.utf8ByteSize ≤ 160 →
    validRepo r = true ∧ deleteRequest r = .ok ⟨"hf", r⟩

/-- The three checks agree on an id exactly if, where it is `owner/name` within the bound of
the download, it has no `..` just when each part begins with a letter or a digit and has the
length of the shape. -/
theorem checks_agree_iff (r : String) :
    Agree r ↔ ∀ owner name, RepoParts r owner name → r.utf8ByteSize ≤ 160 →
      (NoDots r ↔ WellBegun 61 owner ∧ WellBegun 81 name) := by
  constructor
  · intro h owner name hparts hsize
    rw [← hfShape_iff hparts]
    constructor
    · intro hdots
      have hvalid := (validRepo_iff hparts).2 ⟨hsize, hdots⟩
      exact ((deleteRequest_iff hparts).1 (h.downloaded hvalid).2).1
    · intro hshape
      exact ((validRepo_iff hparts).1 (h.launched hshape hsize).1).2
  · intro h
    constructor
    · intro hvalid
      obtain ⟨owner, name, hparts⟩ := exists_of_validRepo hvalid
      obtain ⟨hsize, hdots⟩ := (validRepo_iff hparts).1 hvalid
      have hshape := (hfShape_iff hparts).2 ((h owner name hparts hsize).1 hdots)
      exact ⟨acceptsId_of hparts hdots hshape, (deleteRequest_iff hparts).2 ⟨hshape, hdots⟩⟩
    · intro hshape hsize
      obtain ⟨owner, name, hparts⟩ := exists_of_hfShape hshape
      have hdots := (h owner name hparts hsize).2 ((hfShape_iff hparts).1 hshape)
      exact ⟨(validRepo_iff hparts).2 ⟨hsize, hdots⟩, (deleteRequest_iff hparts).2 ⟨hshape, hdots⟩⟩

/-- An owner that begins with an underscore is downloaded and then neither launched nor
deleted; a part with two dots in it is launched and neither downloaded nor deleted. -/
theorem not_agree :
    (validRepo "_org/model" = true ∧ acceptsId "_org/model".toList = false ∧
      deleteRequest "_org/model" =
        .error (400, "invalid hf_model_id (local:<folder> or org/name)")) ∧
      (acceptsId "org/model..v2".toList = true ∧ validRepo "org/model..v2" = false ∧
        deleteRequest "org/model..v2" = .error (400, "invalid hf_model_id (.. refused)")) ∧
      ¬ ∀ r, Agree r := by
  have hunderscore : validRepo "_org/model" = true ∧ acceptsId "_org/model".toList = false ∧
      deleteRequest "_org/model" =
        .error (400, "invalid hf_model_id (local:<folder> or org/name)") := by decide +kernel
  have hdots : acceptsId "org/model..v2".toList = true ∧ validRepo "org/model..v2" = false ∧
      deleteRequest "org/model..v2" = .error (400, "invalid hf_model_id (.. refused)") := by
    decide +kernel
  refine ⟨hunderscore, hdots, fun h => ?_⟩
  have haccepts := ((h "_org/model").downloaded hunderscore.1).1
  rw [hunderscore.2.1] at haccepts
  exact absurd haccepts (by decide)

end Parts

end Runner
