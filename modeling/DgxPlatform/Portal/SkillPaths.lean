import DgxPlatform.Lib.Text
import DgxPlatform.Lib.Walk

/-! # The paths of an archive's members

`safe_path` refuses what must not be extracted and gives back the normalised path. It
looks for a drive in the name as it came; `normpath` then drops components, and what is
left may be nothing, or may begin with a drive.

* `run_iff`: `normpath`'s stack is the place where the walk along the name ends, unless a
  `..` is left on it.
-/

namespace Portal.Skills

open Walk

/-! ## `normpath` and `safe_path` -/

/-- One component, on the parts kept so far, the last one first. -/
def normStep (parts : List (List Char)) (comp : List Char) : List (List Char) :=
  if comp = [] ∨ comp = ['.'] then parts
  else if comp = ['.', '.'] ∧ parts.head?.any (· ≠ ['.', '.']) then parts.tail
  else comp :: parts

/-- The parts of a path, the last one first. -/
def normParts (path : List Char) : List (List Char) := (path.splitOn '/').foldl normStep []

def normpath (path : List Char) : List Char :=
  if path = [] then ['.']
  else if normParts path = [] then ['.']
  else ['/'].intercalate (normParts path).reverse

/-- `matches!((cs.next(), cs.next()), (Some(c), Some(':')) if c.is_ascii_alphabetic())`. -/
def hasDrive : List Char → Bool
  | c :: ':' :: _ => c.isAlpha
  | _ => false

/-- The folders no member may lie in. -/
def REFUSED : List (List Char) :=
  [".git".toList, "__MACOSX".toList, "node_modules".toList]

/-- What `safe_path` asks of the name. -/
def plainName (name : List Char) : Bool :=
  name ≠ [] && name.getLast? ≠ some '/' && '\x00' ∉ name && '\\' ∉ name && name.head? ≠ some '/' &&
    !hasDrive name

/-- What `safe_path` asks of the normalised path. -/
def plainNorm (norm : List Char) : Bool :=
  !"..".toList.isPrefixOf norm && ¬ "/../".toList <:+: '/' :: norm ++ ['/'] &&
    (norm.splitOn '/').all (· ∉ REFUSED)

/-- `safe_path`: the path to extract a member to, or `none`. -/
def safePath (name : List Char) : Option (List Char) :=
  if plainName name then
    let norm := normpath name
    if plainNorm norm then some norm else none
  else none

example : safePath "docs/./a//../b.md".toList = some "docs/b.md".toList := by decide

/-! ## The walk along a name -/

/-- What a component does on the way down a tree. -/
def compMove (c : List Char) : Move (List Char) :=
  if c = [] ∨ c = ['.'] then .stay else if c = ['.', '.'] then .up else .down c

/-- A component that is a name. -/
def IsName (c : List Char) : Prop := c ≠ [] ∧ c ≠ ['.'] ∧ c ≠ ['.', '.']

variable {c p n : List Char} {cs s t : List (List Char)}

/-- A component that does not climb above the root does what its move does. -/
theorem move_iff (hs : ['.', '.'] ∉ s) :
    move s (compMove c) = some t ↔ normStep s c = t ∧ ['.', '.'] ∉ t := by
  unfold compMove normStep
  split_ifs with hskip hup hpop hpop
  · simp only [move, Option.some.injEq]
    constructor
    · rintro rfl
      exact ⟨rfl, hs⟩
    · exact fun h => h.1
  · cases s with
    | nil => simp at hpop
    | cons a s =>
      simp only [move, Option.some.injEq, List.tail_cons]
      constructor
      · rintro rfl
        exact ⟨rfl, fun h => hs (List.mem_cons_of_mem a h)⟩
      · exact fun h => h.1
  · -- a `..` that stays: there is nothing to take back
    cases s with
    | nil =>
      subst hup
      simp only [move, reduceCtorEq, false_iff, not_and]
      rintro rfl
      exact fun h => h List.mem_cons_self
    | cons a s =>
      have ha : a ≠ ['.', '.'] := fun h => hs (h ▸ List.mem_cons_self)
      exact absurd ⟨hup, by simp [ha]⟩ hpop
  · exact absurd hpop.1 hup
  · simp only [move, Option.some.injEq]
    constructor
    · rintro rfl
      refine ⟨rfl, fun h => ?_⟩
      obtain heq | hmem := List.mem_cons.1 h
      · exact hup heq.symm
      · exact hs hmem
    · exact fun h => h.1

theorem mem_normStep (h : ['.', '.'] ∈ s) : ['.', '.'] ∈ normStep s c := by
  unfold normStep
  split_ifs with hskip hpop
  · exact h
  · cases s with
    | nil => cases h
    | cons a s =>
      obtain heq | hmem := List.mem_cons.1 h
      · subst heq
        simp at hpop
      · exact hmem
  · exact List.mem_cons_of_mem c h

theorem mem_foldl_normStep (h : ['.', '.'] ∈ s) : ['.', '.'] ∈ cs.foldl normStep s := by
  induction cs generalizing s with
  | nil => exact h
  | cons c cs ih => exact ih (mem_normStep h)

theorem run_iff (hs : ['.', '.'] ∉ s) :
    run s (cs.map compMove) = some t ↔ cs.foldl normStep s = t ∧ ['.', '.'] ∉ t := by
  induction cs generalizing s with
  | nil =>
    simp only [List.map_nil, run_nil, Option.some.injEq, List.foldl_nil]
    constructor
    · rintro rfl
      exact ⟨rfl, hs⟩
    · exact fun h => h.1
  | cons c cs ih =>
    rw [List.map_cons, run_cons, List.foldl_cons]
    by_cases hstep : ['.', '.'] ∈ normStep s c
    · have hnone : move s (compMove c) = none := by
        rw [Option.eq_none_iff_forall_ne_some]
        intro u hu
        obtain ⟨rfl, hu'⟩ := (move_iff hs).1 hu
        exact hu' hstep
      rw [hnone]
      constructor
      · exact fun h => nomatch h
      · rintro ⟨rfl, ht⟩
        exact absurd (mem_foldl_normStep hstep) ht
    · rw [(move_iff hs).2 ⟨rfl, hstep⟩]
      exact ih hstep

/-! ## What is left on the stack -/

theorem mem_of_mem_normStep {a : List Char} (h : a ∈ normStep s c) :
    a ∈ s ∨ a = c ∧ c ≠ [] ∧ c ≠ ['.'] := by
  unfold normStep at h
  split_ifs at h with hskip hpop
  · exact .inl h
  · exact .inl (List.mem_of_mem_tail h)
  · obtain rfl | hmem := List.mem_cons.1 h
    · exact .inr ⟨rfl, not_or.1 hskip⟩
    · exact .inl hmem

theorem mem_of_mem_foldl {a : List Char} (h : a ∈ cs.foldl normStep s) :
    a ∈ s ∨ a ∈ cs ∧ a ≠ [] ∧ a ≠ ['.'] := by
  induction cs generalizing s with
  | nil => exact .inl h
  | cons c cs ih =>
    obtain hmem | ⟨hmem, hne⟩ := ih h
    · obtain hs | ⟨rfl, hne⟩ := mem_of_mem_normStep hmem
      · exact .inl hs
      · exact .inr ⟨List.mem_cons_self, hne⟩
    · exact .inr ⟨List.mem_cons_of_mem c hmem, hne⟩

theorem foldl_names (h : ∀ c ∈ cs, IsName c) : cs.foldl normStep s = cs.reverse ++ s := by
  induction cs generalizing s with
  | nil => rfl
  | cons c cs ih =>
    obtain ⟨hc, hcs⟩ := List.forall_mem_cons.1 h
    have hpush : normStep s c = c :: s := by
      rw [normStep, if_neg (not_or.2 ⟨hc.1, hc.2.1⟩), if_neg fun h => hc.2.2 h.1]
    rw [List.foldl_cons, hpush, ih hcs, List.reverse_cons, List.append_assoc]
    rfl

/-! ## Parts and paths -/

theorem infix_of_mem {ps : List (List Char)} (h : c ∈ ps) :
    '/' :: c ++ ['/'] <:+: '/' :: ['/'].intercalate ps ++ ['/'] := by
  induction ps with
  | nil => cases h
  | cons a ps ih =>
    cases ps with
    | nil =>
      rw [List.mem_singleton.1 h, List.intercalate_singleton]
    | cons b ps =>
      rw [List.intercalate_cons_cons]
      obtain rfl | hmem := List.mem_cons.1 h
      · exact ⟨[], ['/'].intercalate (b :: ps) ++ ['/'], by simp⟩
      · refine (ih hmem).trans ⟨'/' :: a, [], by simp⟩

theorem mem_of_enclosed (hne : c ≠ []) (hslash : '/' ∉ c) (h : '/' :: c ++ ['/'] <:+: '/' :: p ++ ['/']) :
    c ∈ p.splitOn '/' := by
  obtain ⟨a, b, hab⟩ := h
  have hsides : ∀ t : List Char, ('/' :: t ++ ['/']).splitOn '/' = [] :: (t.splitOn '/' ++ [[]]) := by
    intro t
    rw [List.cons_append, ← List.nil_append ('/' :: (t ++ ['/'])), List.splitOn_append_cons_self, List.splitOn_nil,
      List.splitOn_append_cons_self, List.splitOn_nil]
    rfl
  have hmem : c ∈ ('/' :: p ++ ['/']).splitOn '/' := by
    have hsplit : a ++ ('/' :: c ++ ['/']) ++ b = a ++ '/' :: (c ++ '/' :: b) := by simp
    rw [← hab, hsplit, List.splitOn_append_cons_self, List.splitOn_append_cons_self_of_not_mem hslash]
    exact List.mem_append_right _ List.mem_cons_self
  rw [hsides] at hmem
  obtain rfl | hmem := List.mem_cons.1 hmem
  · exact absurd rfl hne
  · obtain hp | hlast := List.mem_append.1 hmem
    · exact hp
    · exact absurd (List.mem_singleton.1 hlast) hne

theorem mem_splitOn {d : Char} (hc : c ∈ n.splitOn '/') (hd : d ∈ c) : d ∈ n ∧ d ≠ '/' := by
  rw [List.splitOn_eq_splitOnP] at hc
  obtain ⟨hmem, hne⟩ := Text.of_mem_splitOnP hc d hd
  exact ⟨hmem, fun h => by simp [h] at hne⟩

/-- What a path that walks down to its member is. -/
structure Canonical (p : List Char) : Prop where
  ne : p ≠ []
  relative : p.head? ≠ some '/'
  names : ∀ c ∈ p.splitOn '/', IsName c ∧ c ∉ REFUSED
  drive : hasDrive p = false
  nul : '\x00' ∉ p
  backslash : '\\' ∉ p
  stable : safePath p = some p

/-- The walk along the name keeps a component, and the first it keeps is not a drive. -/
def KeepsName (n : List Char) : Prop :=
  ∃ c, KeepsFirst ((n.splitOn '/').map compMove) c ∧ hasDrive c = false

theorem safePath_eq_some (h : safePath n = some p) :
    plainName n = true ∧ p = normpath n ∧ plainNorm p = true := by
  unfold safePath at h
  split_ifs at h with hname
  simp only at h
  split_ifs at h with hnorm
  obtain rfl := Option.some.inj h
  exact ⟨hname, rfl, hnorm⟩

theorem plainName_iff : plainName n = true ↔ n ≠ [] ∧ n.getLast? ≠ some '/' ∧ '\x00' ∉ n ∧ '\\' ∉ n ∧
    n.head? ≠ some '/' ∧ hasDrive n = false := by
  simp [plainName, and_assoc]

/-- A path of non-empty parts begins and ends with none of its slashes. -/
theorem ends_of_splitOn (h : ∀ c ∈ p.splitOn '/', c ≠ []) :
    p ≠ [] ∧ p.head? ≠ some '/' ∧ p.getLast? ≠ some '/' := by
  refine ⟨?_, ?_, ?_⟩
  · rintro rfl
    exact h [] (by rw [List.splitOn_nil]; exact List.mem_singleton_self _) rfl
  · intro hhead
    obtain ⟨t, rfl⟩ := List.head?_eq_some_iff.1 hhead
    refine h [] ?_ rfl
    rw [← List.nil_append ('/' :: t), List.splitOn_append_cons_self, List.splitOn_nil]
    exact List.mem_cons_self
  · intro hlast
    obtain ⟨t, rfl⟩ := List.getLast?_eq_some_iff.1 hlast
    refine h [] ?_ rfl
    rw [List.splitOn_append_cons_self, List.splitOn_nil]
    exact List.mem_append_right _ (List.mem_singleton_self _)

theorem hasDrive_intercalate (hc : c ≠ []) (cs : List (List Char)) :
    hasDrive (['/'].intercalate (c :: cs)) = hasDrive c := by
  cases cs with
  | nil => rw [List.intercalate_singleton]
  | cons b cs =>
    rw [List.intercalate_cons_cons]
    match c, hc with
    | [a], _ => rfl
    | [a, d], _ => unfold hasDrive; split <;> simp_all
    | a :: d :: e :: t, _ => unfold hasDrive; split <;> simp_all

/-! ## Accepted paths -/

/-- The parts of a name, as they are left when no `..` climbs above the root. -/
structure Parts (n : List Char) (s : List (List Char)) : Prop where
  walk : run [] ((n.splitOn '/').map compMove) = some s
  names : ∀ c ∈ s, IsName c
  chars : ∀ c ∈ s, ∀ d ∈ c, d ∈ n ∧ d ≠ '/'

theorem parts_of_plainNorm (hne : n ≠ []) (h : plainNorm (normpath n) = true) :
    Parts n (normParts n) := by
  have hup : ['.', '.'] ∉ normParts n := by
    intro hmem
    have hinfix := infix_of_mem (List.mem_reverse.2 hmem)
    simp only [plainNorm, normpath, if_neg hne, if_neg (List.ne_nil_of_mem hmem),
      Bool.and_eq_true, decide_eq_true_eq] at h
    exact h.1.2 hinfix
  refine ⟨(run_iff List.not_mem_nil).2 ⟨rfl, hup⟩, fun c hc => ?_, fun c hc d hd => ?_⟩
  · obtain hmem | ⟨-, hne, hdot⟩ := mem_of_mem_foldl hc
    · cases hmem
    · exact ⟨hne, hdot, fun h => hup (h ▸ hc)⟩
  · obtain hmem | ⟨hmem, -⟩ := mem_of_mem_foldl hc
    · cases hmem
    · exact mem_splitOn hmem hd

theorem splitOn_path {s : List (List Char)} (hs : s ≠ []) (h : Parts n s) :
    (['/'].intercalate s.reverse).splitOn '/' = s.reverse := by
  refine List.splitOn_intercalate '/' (fun c hc hslash => ?_) ?_
  · exact (h.chars c (List.mem_reverse.1 hc) '/' hslash).2 rfl
  · exact List.reverse_ne_nil_iff.2 hs

/-- A path of names that may be extracted, when it begins with no drive and no `..`. -/
structure Clean (p : List Char) : Prop where
  names : ∀ c ∈ p.splitOn '/', IsName c ∧ c ∉ REFUSED
  nul : '\x00' ∉ p
  backslash : '\\' ∉ p

theorem Clean.ends (h : Clean p) : p ≠ [] ∧ p.head? ≠ some '/' ∧ p.getLast? ≠ some '/' :=
  ends_of_splitOn fun c hc => (h.names c hc).1.1

theorem Clean.normpath_eq (h : Clean p) : normpath p = p := by
  have hparts : normParts p = (p.splitOn '/').reverse := by
    rw [normParts, foldl_names fun c hc => (h.names c hc).1, List.append_nil]
  have hne : (p.splitOn '/').reverse ≠ [] := List.reverse_ne_nil_iff.2 (List.splitOn_ne_nil '/' p)
  rw [normpath, if_neg h.ends.1, hparts, if_neg hne, List.reverse_reverse, List.intercalate_splitOn]

theorem Clean.safePath_eq (h : Clean p) (hdrive : hasDrive p = false) (hdots : ¬ "..".toList <+: p) :
    safePath p = some p := by
  obtain ⟨hne, hhead, hlast⟩ := h.ends
  have hplain := plainName_iff.2 ⟨hne, hlast, h.nul, h.backslash, hhead, hdrive⟩
  have hup : ¬ "/../".toList <:+: '/' :: p ++ ['/'] := by
    intro hinfix
    exact (h.names ['.', '.'] (mem_of_enclosed (by decide) (by decide) hinfix)).1.2.2 rfl
  have hnorm : plainNorm p = true := by
    simp only [plainNorm, Bool.and_eq_true, Bool.not_eq_true', decide_eq_true_eq, List.all_eq_true]
    refine ⟨⟨?_, hup⟩, fun c hc => (h.names c hc).2⟩
    rw [Bool.eq_false_iff]
    exact fun hpre => hdots (List.isPrefixOf_iff_prefix.1 hpre)
  rw [safePath, if_pos hplain, h.normpath_eq]
  exact if_pos hnorm

theorem clean_path {s : List (List Char)} (hname : plainName n = true) (hs : s ≠ []) (h : Parts n s)
    (hnorm : plainNorm (['/'].intercalate s.reverse) = true) : Clean (['/'].intercalate s.reverse) := by
  obtain ⟨-, -, hnul, hback, -, -⟩ := plainName_iff.1 hname
  have hchar : ∀ d ∈ ['/'].intercalate s.reverse, d = '/' ∨ d ∈ n := by
    intro d hd
    obtain hslash | ⟨c, hc, hd'⟩ := Text.mem_intercalate hd
    · exact .inl hslash
    · exact .inr (h.chars c (List.mem_reverse.1 hc) d hd').1
  have hrefused : ∀ c ∈ (['/'].intercalate s.reverse).splitOn '/', c ∉ REFUSED := by
    simp only [plainNorm, Bool.and_eq_true, List.all_eq_true, decide_eq_true_eq] at hnorm
    exact hnorm.2
  refine ⟨fun c hc => ⟨?_, hrefused c hc⟩, fun hd => ?_, fun hd => ?_⟩
  · rw [splitOn_path hs h] at hc
    exact h.names c (List.mem_reverse.1 hc)
  · obtain hslash | hn := hchar _ hd
    · cases hslash
    · exact hnul hn
  · obtain hslash | hn := hchar _ hd
    · exact absurd hslash (by decide)
    · exact hback hn

theorem clean_of_safePath (h : safePath n = some p) : p = ['.'] ∨ Clean p := by
  obtain ⟨hname, rfl, hnorm⟩ := safePath_eq_some h
  have hne := (plainName_iff.1 hname).1
  by_cases hs : normParts n = []
  · exact .inl (by rw [normpath, if_neg hne, if_pos hs])
  · have hpath : normpath n = ['/'].intercalate (normParts n).reverse := by
      rw [normpath, if_neg hne, if_neg hs]
    have hparts := parts_of_plainNorm hne hnorm
    rw [hpath] at hnorm ⊢
    exact .inr (clean_path hname hs hparts hnorm)

/-- A path that keeps parts is canonical when it begins with no drive. -/
theorem canonical_path {s : List (List Char)} (hname : plainName n = true) (hs : s ≠ [])
    (h : Parts n s) (hnorm : plainNorm (['/'].intercalate s.reverse) = true) :
    Canonical (['/'].intercalate s.reverse) ↔ hasDrive (['/'].intercalate s.reverse) = false := by
  refine ⟨Canonical.drive, fun hdrive => ?_⟩
  have hclean := clean_path hname hs h hnorm
  obtain ⟨hne, hhead, -⟩ := hclean.ends
  have hdots : ¬ "..".toList <+: ['/'].intercalate s.reverse := by
    intro hpre
    simp only [plainNorm, Bool.and_eq_true, Bool.not_eq_true'] at hnorm
    rw [List.isPrefixOf_iff_prefix.2 hpre] at hnorm
    cases hnorm.1.1
  exact ⟨hne, hhead, hclean.names, hdrive, hclean.nul, hclean.backslash, hclean.safePath_eq hdrive hdots⟩

/-- An accepted path is canonical exactly when the name keeps a component and the first it
keeps is not a drive. -/
theorem canonical_iff (h : safePath n = some p) : Canonical p ↔ KeepsName n := by
  obtain ⟨hname, rfl, hnorm⟩ := safePath_eq_some h
  have hne := (plainName_iff.1 hname).1
  have hparts := parts_of_plainNorm hne hnorm
  have hfirst : ∀ c, (normParts n).getLast? = some c ↔
      KeepsFirst ((n.splitOn '/').map compMove) c := fun c => getLast?_run_iff hparts.walk
  by_cases hs : normParts n = []
  · have hdot : normpath n = ['.'] := by rw [normpath, if_neg hne, if_pos hs]
    rw [hdot]
    constructor
    · exact fun hcan => absurd rfl (hcan.names ['.'] (by decide)).1.2.1
    · rintro ⟨c, hc, -⟩
      rw [← hfirst c, hs] at hc
      cases hc
  · have hpath : normpath n = ['/'].intercalate (normParts n).reverse := by
      rw [normpath, if_neg hne, if_neg hs]
    have hc := List.getLast?_eq_some_getLast hs
    set c := (normParts n).getLast hs
    obtain ⟨rest, hrest⟩ := List.getLast?_eq_some_iff.1 hc
    have hcne : c ≠ [] := (hparts.names c (List.mem_of_getLast? hc)).1
    have hdrive : hasDrive (normpath n) = hasDrive c := by
      rw [hpath, hrest, List.reverse_concat, hasDrive_intercalate hcne]
    rw [hpath] at hnorm hdrive ⊢
    rw [canonical_path hname hs hparts hnorm, hdrive]
    constructor
    · exact fun hnone => ⟨c, (hfirst c).1 hc, hnone⟩
    · rintro ⟨c', hc', hnone⟩
      rw [← hfirst c', hc] at hc'
      rwa [Option.some.inj hc']

theorem canonical_iff_docs : Canonical "docs/b.md".toList ↔ KeepsName "docs/a/.././b.md".toList :=
  canonical_iff (by decide)

/-- `x/../C:/f` brings a drive to the front, and `safe_path` refuses what it gave back;
`a/..` keeps no component. -/
theorem drive_accepted :
    safePath "x/../C:/f".toList = some "C:/f".toList ∧ safePath "C:/f".toList = none ∧
      safePath "a/..".toList = some ['.'] ∧ ¬ ∀ n p, safePath n = some p → Canonical p := by
  have hdrive : safePath "x/../C:/f".toList = some "C:/f".toList := by decide
  have hrefused : safePath "C:/f".toList = none := by decide
  refine ⟨hdrive, hrefused, by decide, fun h => ?_⟩
  have hstable := (h _ _ hdrive).stable
  rw [hrefused] at hstable
  cases hstable

end Portal.Skills
