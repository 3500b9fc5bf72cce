import DgxPlatform.Lib.Utf8
import DgxPlatform.Portal.FileTools

/-! # Replacing a passage

`str_replace` promises to edit a file only where the text to replace stands at exactly one
position. It counts as `str::matches` does, each match behind the one before, so a text
that stands at two positions which overlap is counted once and its first position is edited.
-/

namespace Portal.FileTools

section Occurrences

variable {old content : List Char} {i j : Nat}

theorem lt_of_occurs (hne : old ≠ []) (h : Occurs old content i) : i < content.length := by
  by_contra hge
  unfold Occurs at h
  rw [List.drop_of_length_le (by omega), List.prefix_nil] at h
  exact hne h

theorem mem_occurrences_iff (hne : old ≠ []) : i ∈ occurrences old content ↔ Occurs old content i := by
  rw [occurrences, List.mem_filter, List.mem_range, decide_eq_true_eq]
  constructor
  · exact And.right
  · intro h
    have := lt_of_occurs hne h
    exact ⟨by omega, h⟩

theorem isSome_match_iff {t : List Char} : (if old <+: t then some () else none).isSome ↔ old <+: t := by
  split_ifs with h
  · exact ⟨fun _ => h, fun _ => rfl⟩
  · constructor
    · intro hnone
      cases hnone
    · exact fun hpre => absurd hpre h

theorem length_matchesOf (old content : List Char) :
    (matchesOf old content).length =
      (Scan.scan (fun _ t => if old <+: t then some () else none) (fun _ => old.length) 0 content).length :=
  List.length_map _

theorem length_matchesOf_eq_zero_iff (hne : old ≠ []) :
    (matchesOf old content).length = 0 ↔ ∀ i, ¬ Occurs old content i := by
  have hmoves : Scan.Moves (fun _ t => if old <+: t then some () else none) fun _ => old.length :=
    fun _ _ _ _ => List.length_pos_iff.2 hne
  rw [length_matchesOf, List.length_eq_zero_iff, Scan.scan_eq_nil_iff hmoves]
  constructor
  · intro h i hi
    have hpre : old <+: content.drop i := hi
    have hnone := h i (lt_of_occurs hne hi)
    rw [if_pos hpre] at hnone
    cases hnone
  · intro h i _
    exact if_neg (h i)

theorem one_lt_length_matchesOf_iff (hne : old ≠ []) :
    1 < (matchesOf old content).length ↔
      ∃ i j, i + old.length ≤ j ∧ Occurs old content i ∧ Occurs old content j := by
  rw [length_matchesOf, Scan.one_lt_length_scan_iff (List.length_pos_iff.2 hne)]
  simp only [isSome_match_iff]
  constructor
  · rintro ⟨i, j, hij, -, hi, hj⟩
    exact ⟨i, j, hij, hi, hj⟩
  · rintro ⟨i, j, hij, hi, hj⟩
    exact ⟨i, j, hij, lt_of_occurs hne hj, hi, hj⟩

theorem head?_occurrences (hne : old ≠ []) (hi : Occurs old content i)
    (honly : ∀ j, Occurs old content j → j = i) : (occurrences old content).head? = some i := by
  cases hocc : occurrences old content with
  | nil =>
    have hmem := (mem_occurrences_iff hne).2 hi
    rw [hocc] at hmem
    cases hmem
  | cons j rest =>
    have hmem : j ∈ occurrences old content := by
      rw [hocc]
      exact List.mem_cons_self
    rw [List.head?_cons, honly j ((mem_occurrences_iff hne).1 hmem)]

/-- A text that stands at two positions stands at two that do not overlap. -/
def Separate (old content : List Char) : Prop :=
  (∃ i j, i < j ∧ Occurs old content i ∧ Occurs old content j) →
    ∃ i j, i + old.length ≤ j ∧ Occurs old content i ∧ Occurs old content j

/-- If no end of the text is its beginning, no two positions overlap. -/
theorem separate_of_borderless (h : ∀ k < old.length, 0 < k → ¬ old.drop k <+: old) :
    Separate old content := by
  rintro ⟨i, j, hij, hi, hj⟩
  refine ⟨i, j, ?_, hi, hj⟩
  by_contra hreach
  obtain ⟨rest, hrest⟩ := hi
  have hdrop : content.drop j = old.drop (j - i) ++ rest := by
    rw [show j = i + (j - i) by omega, ← List.drop_drop, ← hrest, List.drop_append_of_le_length (by omega),
      show i + (j - i) - i = j - i by omega]
  have hpre : old.drop (j - i) <+: content.drop j := hdrop ▸ List.prefix_append _ _
  refine h (j - i) (by omega) (by omega) (List.prefix_of_prefix_length_le hpre hj ?_)
  rw [List.length_drop]
  omega

/-- A text stands at a byte exactly where this is the first byte of one of its positions. -/
theorem occurs_bytes_iff (hne : old ≠ []) {k : Nat} :
    Utf8.encode old <+: (Utf8.encode content).drop k ↔
      ∃ i, k = (Utf8.encode (content.take i)).length ∧ Occurs old content i :=
  Utf8.encode_isPrefix_drop_iff hne

/-- The splice at byte offsets. -/
theorem encode_splice (h : Occurs old content i) (new : List Char) :
    let pos := (Utf8.encode (content.take i)).length
    Utf8.encode (content.take i ++ new ++ content.drop (i + old.length)) =
      (Utf8.encode content).take pos ++ Utf8.encode new ++
        (Utf8.encode content).drop (pos + (Utf8.encode old).length) := by
  obtain ⟨rest, hrest⟩ := h
  have hsplit : content = content.take i ++ (old ++ rest) := by
    rw [hrest, List.take_append_drop]
  have hdrop : content.drop (i + old.length) = rest := by
    rw [← List.drop_drop, ← hrest, List.drop_left]
  have hbytes : Utf8.encode content =
      Utf8.encode (content.take i) ++ (Utf8.encode old ++ Utf8.encode rest) := by
    rw [← Utf8.encode_append, ← Utf8.encode_append, ← hsplit]
  intro pos
  rw [hdrop, hbytes, List.take_left, ← List.drop_drop, List.drop_left, List.drop_left,
    Utf8.encode_append, Utf8.encode_append]

end Occurrences

/-- The call succeeds exactly where the text stands at one position, and then replaces it
there. -/
structure Unambiguous (args : Json) (s : State) (path content old : List Char) : Prop where
  succeeds : (exec "str_replace".toList args s).1.error = none ↔ ∃! i, Occurs old content i
  spliced : ∀ i, (exec "str_replace".toList args s).1.error = none → Occurs old content i →
    (exec "str_replace".toList args s).2.files.get? path =
      some (content.take i ++ newStr args ++ content.drop (i + old.length))

section Replace

variable {args : Json} {s : State} {path content old : List Char}

theorem oldStr_eq (hold : args.get? "old_str" = some (.str old)) (hne : old ≠ []) : oldStr args = some old := by
  rw [oldStr, hold, Option.bind_some, Json.str?_str, Option.filter_some, if_pos (decide_eq_true hne)]

/-- The call succeeds where no two positions are behind one another. -/
theorem error_eq_none_iff (hpath : resolve s.files (cleanPath (args.get? "path")) = some path)
    (hcontent : s.files.get? path = some content) (hold : args.get? "old_str" = some (.str old))
    (hne : old ≠ []) :
    (exec "str_replace".toList args s).1.error = none ↔
      (∃ i, Occurs old content i) ∧
        ¬ ∃ i j, i + old.length ≤ j ∧ Occurs old content i ∧ Occurs old content j := by
  rw [exec_replace hpath hcontent, ← one_lt_length_matchesOf_iff hne, ← not_forall_not,
    ← length_matchesOf_eq_zero_iff hne]
  constructor
  · intro hnone
    by_contra hcount
    have hrefused : ∀ old', ¬ Replaces args content old' := by
      rintro old' ⟨hgiven, honce⟩
      obtain rfl := Option.some.inj ((oldStr_eq hold hne).symm.trans hgiven)
      exact hcount (by omega)
    have herror : (strReplace args path content s).1.error.isSome := (strReplace_of_not_replaces hrefused).1
    rw [hnone] at herror
    cases herror
  · intro hcount
    exact (strReplace_of_replaces ⟨oldStr_eq hold hne, by omega⟩).1

/-- The promise is kept exactly if the positions of the text do not only overlap. -/
theorem unambiguous_iff (hpath : resolve s.files (cleanPath (args.get? "path")) = some path)
    (hcontent : s.files.get? path = some content) (hold : args.get? "old_str" = some (.str old))
    (hne : old ≠ []) : Unambiguous args s path content old ↔ Separate old content := by
  have herror := error_eq_none_iff hpath hcontent hold hne
  constructor
  · rintro ⟨hsucceeds, -⟩ ⟨i, j, hij, hi, hj⟩
    by_contra hreach
    obtain ⟨k, -, honly⟩ := hsucceeds.1 (herror.2 ⟨⟨i, hi⟩, hreach⟩)
    have hik := honly i hi
    have hjk := honly j hj
    omega
  · intro hseparate
    have hunique : (exec "str_replace".toList args s).1.error = none ↔ ∃! i, Occurs old content i := by
      rw [herror]
      constructor
      · rintro ⟨⟨i, hi⟩, hapart⟩
        refine ⟨i, hi, fun j hj => ?_⟩
        by_contra hne'
        rcases Nat.lt_or_gt_of_ne hne' with hlt | hgt
        · exact hapart (hseparate ⟨j, i, hlt, hj, hi⟩)
        · exact hapart (hseparate ⟨i, j, hgt, hi, hj⟩)
      · rintro ⟨i, hi, honly⟩
        refine ⟨⟨i, hi⟩, ?_⟩
        rintro ⟨j, k, hjk, hj, hk⟩
        have := honly j hj
        have := honly k hk
        have := List.length_pos_iff.2 hne
        omega
    refine ⟨hunique, fun i hsuccess hi => ?_⟩
    obtain ⟨k, -, honly⟩ := hunique.1 hsuccess
    have hfirst : (occurrences old content).head? = some i := by
      refine head?_occurrences hne hi fun j hj => ?_
      rw [honly j hj, honly i hi]
    have hcount := herror.1 hsuccess
    rw [← one_lt_length_matchesOf_iff hne, ← not_forall_not, ← length_matchesOf_eq_zero_iff hne] at hcount
    rw [exec_replace hpath hcontent, (strReplace_of_replaces ⟨oldStr_eq hold hne, by omega⟩).2]
    show (s.files.set path (replaced args content old)).get? path = _
    rw [Dict.get?_set, if_pos rfl]
    unfold replaced
    rw [hfirst, Option.getD_some]

end Replace

/-! ### Two positions that overlap -/

def sampleFiles (content : String) : Files := ⟨[("a.txt".toList, content.toList)], List.nodup_singleton _⟩

def sampleArgs (old new : String) : Json :=
  .obj [("path", .str "a.txt".toList), ("old_str", .str old.toList), ("new_str", .str new.toList)]

/-- The text stands at two positions of the file, and the first is edited. -/
theorem not_unambiguous_overlap :
    ¬ Unambiguous (sampleArgs "aa" "b") (.start (sampleFiles "aaa")) "a.txt".toList "aaa".toList
      "aa".toList := by
  rintro ⟨hsucceeds, -⟩
  have hedited : (exec "str_replace".toList (sampleArgs "aa" "b") (.start (sampleFiles "aaa"))).1.error = none ∧
      Occurs "aa".toList "aaa".toList 0 ∧ Occurs "aa".toList "aaa".toList 1 := by
    decide +kernel
  obtain ⟨hsuccess, hzero, hone⟩ := hedited
  obtain ⟨i, -, honly⟩ := hsucceeds.1 hsuccess
  have := honly 0 hzero
  have := honly 1 hone
  omega

/-- Positions that do not overlap. -/
theorem unambiguous_apart :
    Unambiguous (sampleArgs "ab" "c") (.start (sampleFiles "abab")) "a.txt".toList "abab".toList
      "ab".toList :=
  (unambiguous_iff (by decide +kernel) (by decide +kernel) rfl (by decide)).2
    (separate_of_borderless (by decide))

end Portal.FileTools
