import DgxPlatform.Lib.Percent
import Mathlib.Data.List.Induction

/-! # The path of a web address

What the parser of web addresses makes of a path: the text is cut at slashes and
backslashes, a segment of two dots takes the one before it away, one of a single dot
is dropped, and a dot may be written `%2e`.

* `walk`: what some segments make of a path.
* `Keeps`: the runs of segments that leave a path as it is, as a grammar: a dot, a
  segment and two dots, two dots and the segment they took away, two dots at the root.
* `walk_eq_self_iff`, `walk_eq_concat_iff`: a path is left as it is exactly by these,
  and gets a segment more exactly if that segment stands between two of them.
* `isPlain_encode_iff`, `resolve_eq_self_iff`: encoding makes no dots, and a path from the
  root is left as it is exactly if it has none.
-/

namespace UrlPath

abbrev Segment := List Char

def lower (s : Segment) : Segment := s.map Char.toLower

def isSingleDot (s : Segment) : Bool := lower s = ".".toList || lower s = "%2e".toList

def isDoubleDot (s : Segment) : Bool :=
  lower s = "..".toList || lower s = ".%2e".toList || lower s = "%2e.".toList || lower s = "%2e%2e".toList

/-- Neither a single dot nor two. -/
def isPlain (s : Segment) : Bool := !isSingleDot s && !isDoubleDot s

def isSlash (c : Char) : Bool := c == '/' || c == '\\'

/-- The bytes of a path that the parser does not escape. -/
def keepInPath (b : UInt8) : Bool :=
  0x20 < b && b < 0x7F && !([0x22, 0x23, 0x3C, 0x3E, 0x3F, 0x5E, 0x60, 0x7B, 0x7D] : List UInt8).contains b

/-- The segments of a text, escaped. -/
def segments (t : List Char) : List Segment := (t.splitOnP isSlash).map (Percent.encode keepInPath)

/-- A segment with a slash behind it. -/
def step (path : List Segment) (s : Segment) : List Segment :=
  if isDoubleDot s then path.dropLast else if isSingleDot s then path else path ++ [s]

def walk (path ss : List Segment) : List Segment := ss.foldl step path

/-- The last segment; dots at the end leave an empty one. -/
def finish (path : List Segment) (s : Segment) : List Segment :=
  if isDoubleDot s then path.dropLast ++ [[]] else if isSingleDot s then path ++ [[]] else path ++ [s]

def resolve (path : List Segment) : List Segment → List Segment
  | [] => path
  | [s] => finish path s
  | s :: ss => resolve (step path s) ss

variable {path p q ss w : List Segment} {s : Segment}

theorem isSingleDot_of_double (h : isDoubleDot s = true) : isSingleDot s = false := by
  simp only [isDoubleDot, Bool.or_eq_true, decide_eq_true_eq] at h
  simp only [isSingleDot, Bool.or_eq_false_iff, decide_eq_false_iff_not]
  rcases h with ((h | h) | h) | h
  all_goals
    rw [h]
    decide

theorem isPlain_iff : isPlain s = true ↔ isSingleDot s = false ∧ isDoubleDot s = false := by
  rw [isPlain, Bool.and_eq_true, Bool.not_eq_true', Bool.not_eq_true']

theorem step_double (h : isDoubleDot s = true) : step path s = path.dropLast := if_pos h

theorem step_single (h : isSingleDot s = true) : step path s = path := by
  have hdouble : isDoubleDot s = false := by
    by_contra hd
    rw [Bool.not_eq_false] at hd
    rw [isSingleDot_of_double hd] at h
    cases h
  rw [step, if_neg (by rw [hdouble]; exact Bool.false_ne_true), if_pos h]

theorem step_plain (h : isPlain s = true) : step path s = path ++ [s] := by
  obtain ⟨hsingle, hdouble⟩ := isPlain_iff.1 h
  rw [step, if_neg (by rw [hdouble]; exact Bool.false_ne_true), if_neg (by rw [hsingle]; exact Bool.false_ne_true)]

theorem kind_cases (s : Segment) : isDoubleDot s = true ∨ isSingleDot s = true ∨ isPlain s = true := by
  cases hd : isDoubleDot s with
  | true => exact Or.inl rfl
  | false =>
    cases hs : isSingleDot s with
    | true => exact Or.inr (Or.inl rfl)
    | false => exact Or.inr (Or.inr (isPlain_iff.2 ⟨hs, hd⟩))

@[simp] theorem walk_nil : walk path [] = path := rfl

theorem walk_cons : walk path (s :: ss) = walk (step path s) ss := rfl

theorem walk_append : walk path (p ++ q) = walk (walk path p) q := List.foldl_append

theorem walk_concat : walk path (ss ++ [s]) = step (walk path ss) s := by
  rw [walk_append]
  rfl

theorem walk_plain (h : ∀ s ∈ ss, isPlain s = true) : walk path ss = path ++ ss := by
  induction ss generalizing path with
  | nil => exact (List.append_nil path).symm
  | cons s ss ih =>
    obtain ⟨hs, hss⟩ := List.forall_mem_cons.1 h
    rw [walk_cons, step_plain hs, ih hss, List.append_assoc]
    rfl

theorem resolve_concat (path ss : List Segment) (s : Segment) : resolve path (ss ++ [s]) = finish (walk path ss) s := by
  induction ss generalizing path with
  | nil => rfl
  | cons r ss ih =>
    obtain ⟨x, t, ht⟩ : ∃ x t, ss ++ [s] = x :: t := List.exists_cons_of_ne_nil (by simp)
    have hstep : resolve path (r :: x :: t) = resolve (step path r) (x :: t) := rfl
    rw [List.cons_append, ht, hstep, ← ht, ih, walk_cons]

theorem finish_single (h : isSingleDot s = true) : finish path s = path ++ [[]] := by
  have hdouble : ¬ isDoubleDot s = true := by
    intro hd
    rw [isSingleDot_of_double hd] at h
    cases h
  rw [finish, if_neg hdouble, if_pos h]

theorem finish_plain (h : isPlain s = true) : finish path s = path ++ [s] := by
  obtain ⟨hsingle, hdouble⟩ := isPlain_iff.1 h
  rw [finish, if_neg (by rw [hdouble]; exact Bool.false_ne_true), if_neg (by rw [hsingle]; exact Bool.false_ne_true)]

/-- A resolved path with a segment at its end that is not empty: it is the last one. -/
theorem finish_eq_concat_iff (hs : s ≠ []) {r : Segment} :
    finish path r = q ++ [s] ↔ path = q ∧ r = s ∧ isPlain s = true := by
  rcases kind_cases r with hr | hr | hr
  · rw [finish, if_pos hr]
    constructor
    · intro h
      have hlast := (List.append_inj' h rfl).2
      exact absurd (List.cons.inj hlast).1.symm hs
    · rintro ⟨-, rfl, hplain⟩
      rw [(isPlain_iff.1 hplain).2] at hr
      cases hr
  · rw [finish_single hr]
    constructor
    · intro h
      have hlast := (List.append_inj' h rfl).2
      exact absurd (List.cons.inj hlast).1.symm hs
    · rintro ⟨-, rfl, hplain⟩
      rw [(isPlain_iff.1 hplain).1] at hr
      cases hr
  · rw [finish_plain hr]
    constructor
    · intro h
      obtain ⟨hpath, hlast⟩ := List.append_inj' h rfl
      have hrs := (List.cons.inj hlast).1
      subst hrs
      exact ⟨hpath, rfl, hr⟩
    · rintro ⟨rfl, rfl, -⟩
      rfl

/-! ## What leaves a path as it is -/

/-- The runs of segments that leave the path as it is. -/
inductive Keeps : List Segment → List Segment → Prop where
  | nil (path : List Segment) : Keeps path []
  | dot {path w : List Segment} {s : Segment} (hs : isSingleDot s = true) (hw : Keeps path w) : Keeps path (s :: w)
  /-- A segment that is taken away again. -/
  | enter {path v w : List Segment} {s d : Segment} (hs : isPlain s = true) (hv : Keeps (path ++ [s]) v) (hd : isDoubleDot d = true)
      (hw : Keeps path w) : Keeps path (s :: (v ++ d :: w))
  /-- The last segment of the path, taken away and entered again. -/
  | leave {path v w : List Segment} {s d : Segment} (hd : isDoubleDot d = true) (hv : Keeps path v) (hs : isPlain s = true)
      (hw : Keeps (path ++ [s]) w) : Keeps (path ++ [s]) (d :: (v ++ s :: w))
  | root {w : List Segment} {d : Segment} (hd : isDoubleDot d = true) (hw : Keeps [] w) : Keeps [] (d :: w)

theorem Keeps.walk_eq (h : Keeps path w) : walk path w = path := by
  induction h with
  | nil => rfl
  | dot hs hw ih => rw [walk_cons, step_single hs, ih]
  | enter hs hv hd hw ihv ihw =>
    rw [walk_cons, step_plain hs, walk_append, ihv, walk_cons, step_double hd, List.dropLast_concat, ihw]
  | leave hd hv hs hw ihv ihw =>
    rw [walk_cons, step_double hd, List.dropLast_concat, walk_append, ihv, walk_cons, step_plain hs, ihw]
  | root hd hw ih => rw [walk_cons, step_double hd, List.dropLast_nil, ih]

/-- A walk above a path stays above it, or takes it away at some place. -/
theorem walk_above (p q ss : List Segment) :
    (∃ r, walk (p ++ q) ss = p ++ r) ∨
      ∃ v d w, ss = v ++ d :: w ∧ isDoubleDot d = true ∧ walk (p ++ q) v = p := by
  induction ss generalizing q with
  | nil => exact Or.inl ⟨q, rfl⟩
  | cons s ss ih =>
    -- the step, as long as it stays above
    have hgo : ∀ q', step (p ++ q) s = p ++ q' →
        (∃ r, walk (p ++ q) (s :: ss) = p ++ r) ∨
          ∃ v d w, s :: ss = v ++ d :: w ∧ isDoubleDot d = true ∧ walk (p ++ q) v = p := by
      intro q' hq'
      rcases ih q' with ⟨r, hr⟩ | ⟨v, d, w, rfl, hd, hv⟩
      · exact Or.inl ⟨r, by rw [walk_cons, hq', hr]⟩
      · exact Or.inr ⟨s :: v, d, w, rfl, hd, by rw [walk_cons, hq', hv]⟩
    rcases kind_cases s with hs | hs | hs
    · rcases List.eq_nil_or_concat q with rfl | ⟨q', x, rfl⟩
      · exact Or.inr ⟨[], s, ss, rfl, hs, List.append_nil p⟩
      · refine hgo q' ?_
        rw [step_double hs, List.concat_eq_append, ← List.append_assoc, List.dropLast_concat]
    · exact hgo q (step_single hs)
    · refine hgo (q ++ [s]) ?_
      rw [step_plain hs, List.append_assoc]

theorem walk_enters {r : List Segment} (hlen : path.length ≤ p.length) (h : walk path ss = p ++ s :: r) :
    ∃ v w, ss = v ++ s :: w ∧ isPlain s = true ∧ walk path v = p ∧ walk (p ++ [s]) w = p ++ s :: r := by
  induction ss using List.reverseRecOn generalizing r with
  | nil =>
    have hlength := congrArg List.length h
    rw [walk_nil, List.length_append, List.length_cons] at hlength
    omega
  | append_singleton ss x ih =>
    rw [walk_concat] at h
    -- a last step that is not the entry itself
    have hgo : ∀ r', walk path ss = p ++ s :: r' →
        ∃ v w, ss ++ [x] = v ++ s :: w ∧ isPlain s = true ∧ walk path v = p ∧ walk (p ++ [s]) w = p ++ s :: r := by
      intro r' hr'
      obtain ⟨v, w, rfl, hs, hv, hw⟩ := ih hr'
      refine ⟨v, w ++ [x], by rw [List.append_assoc, List.cons_append], hs, hv, ?_⟩
      rw [walk_concat, hw, ← hr', h]
    rcases kind_cases x with hx | hx | hx
    · rw [step_double hx] at h
      -- the path before the step has one segment more
      rcases List.eq_nil_or_concat (walk path ss) with hnil | ⟨l, y, hl⟩
      · rw [hnil, List.dropLast_nil] at h
        exact absurd h.symm (List.append_ne_nil_of_right_ne_nil p (List.cons_ne_nil s r))
      · rw [hl, List.concat_eq_append, List.dropLast_concat] at h
        refine hgo (r ++ [y]) ?_
        rw [hl, List.concat_eq_append, h, List.append_assoc, List.cons_append]
    · rw [step_single hx] at h
      exact hgo r h
    · rw [step_plain hx] at h
      rcases List.eq_nil_or_concat r with rfl | ⟨r', y, rfl⟩
      · obtain ⟨hpath, hlast⟩ := List.append_inj' h rfl
        obtain rfl := (List.cons.inj hlast).1
        exact ⟨ss, [], rfl, hx, hpath, rfl⟩
      · rw [List.concat_eq_append, ← List.cons_append, ← List.append_assoc] at h
        exact hgo r' (List.append_inj' h rfl).1

theorem walk_eq_self_iff : walk path w = path ↔ Keeps path w := by
  constructor
  · intro h
    induction hn : w.length using Nat.strong_induction_on generalizing path w with
    | _ n ih =>
      subst hn
      cases w with
      | nil => exact .nil path
      | cons s t =>
        rw [walk_cons] at h
        rcases kind_cases s with hs | hs | hs
        · rw [step_double hs] at h
          rcases List.eq_nil_or_concat path with rfl | ⟨p, b, rfl⟩
          · exact .root hs (ih t.length (by simp) h rfl)
          · -- the last segment is entered again somewhere
            rw [List.concat_eq_append, List.dropLast_concat] at h
            rw [List.concat_eq_append]
            obtain ⟨v, w, rfl, hb, hv, hw⟩ := walk_enters (Nat.le_refl p.length) h
            have hlength : (v ++ b :: w).length < (s :: (v ++ b :: w)).length := Nat.lt_succ_self _
            rw [List.length_append, List.length_cons] at hlength
            exact .leave hs (ih v.length (by omega) hv rfl) hb (ih w.length (by omega) hw rfl)
        · rw [step_single hs] at h
          exact .dot hs (ih t.length (by simp) h rfl)
        · rw [step_plain hs] at h
          rcases walk_above (path ++ [s]) [] t with ⟨r, hr⟩ | ⟨v, d, w, rfl, hd, hv⟩
          · -- it cannot stay above the new segment
            rw [List.append_nil, h] at hr
            have hlength := congrArg List.length hr
            rw [List.length_append, List.length_append, List.length_cons] at hlength
            omega
          · rw [List.append_nil] at hv
            rw [walk_append, hv, walk_cons, step_double hd, List.dropLast_concat] at h
            have hlength : (v ++ d :: w).length < (s :: (v ++ d :: w)).length := Nat.lt_succ_self _
            rw [List.length_append, List.length_cons] at hlength
            exact .enter hs (ih v.length (by omega) hv rfl) hd (ih w.length (by omega) h rfl)
  · exact Keeps.walk_eq

/-- A path gets one segment more exactly if that segment stands between two runs of the grammar. -/
theorem walk_eq_concat_iff :
    walk path w = path ++ [s] ↔
      ∃ u v, w = u ++ s :: v ∧ isPlain s = true ∧ Keeps path u ∧ Keeps (path ++ [s]) v := by
  constructor
  · intro h
    obtain ⟨u, v, hw, hs, hu, hv⟩ := walk_enters (Nat.le_refl path.length) h
    exact ⟨u, v, hw, hs, walk_eq_self_iff.1 hu, walk_eq_self_iff.1 hv⟩
  · rintro ⟨u, v, rfl, hs, hu, hv⟩
    rw [walk_append, hu.walk_eq, walk_cons, step_plain hs, hv.walk_eq]

/-! ## Segments that were encoded -/

theorem lt_of_toLower {c : Char} (h : c.toLower.toNat < 128) : c.toNat < 128 := by
  unfold Char.toLower at h
  split at h
  · next hup =>
      have hle : c.toNat ≤ 90 := UInt32.le_iff_toNat_le.1 hup.2
      omega
  · exact h

theorem toLower_dots {c : Char} :
    (c.toLower = '.' → c = '.') ∧ (c.toLower = '%' → c = '%') ∧ (c.toLower = '2' → c = '2') ∧
      (c.toLower = 'e' → c = 'E' ∨ c = 'e') := by
  have hall : ∀ n < 128, ((Char.ofNat n).toLower = '.' → Char.ofNat n = '.') ∧
      ((Char.ofNat n).toLower = '%' → Char.ofNat n = '%') ∧ ((Char.ofNat n).toLower = '2' → Char.ofNat n = '2') ∧
      ((Char.ofNat n).toLower = 'e' → Char.ofNat n = 'E' ∨ Char.ofNat n = 'e') := by decide
  by_cases hc : c.toLower.toNat < 128
  · have := hall c.toNat (lt_of_toLower hc)
    rwa [Char.ofNat_toNat] at this
  · refine ⟨?_, ?_, ?_, ?_⟩
    all_goals
      intro h
      rw [h] at hc
      exact absurd (by decide) hc

theorem decode_of_lower_dot {t : Segment} (h : lower s = '.' :: t) :
    ∃ r, lower r = t ∧ Percent.decode s = 46 :: Percent.decode r := by
  cases s with
  | nil => cases h
  | cons c r =>
    rcases List.cons.inj h with ⟨hc, hr⟩
    rcases toLower_dots.1 hc with rfl
    exact ⟨r, hr, Percent.decode_cons (by decide) r⟩

theorem decode_of_lower_escape {t : Segment} (h : lower s = '%' :: '2' :: 'e' :: t) :
    ∃ r, lower r = t ∧ Percent.decode s = 46 :: Percent.decode r := by
  rcases List.map_eq_cons_iff.1 h with ⟨a, s, rfl, ha, h⟩
  rcases List.map_eq_cons_iff.1 h with ⟨b, s, rfl, hb, h⟩
  rcases List.map_eq_cons_iff.1 h with ⟨c, r, rfl, hc, hr⟩
  rcases toLower_dots.2.1 ha with rfl
  rcases toLower_dots.2.2.1 hb with rfl
  refine ⟨r, hr, ?_⟩
  rcases toLower_dots.2.2.2 hc with rfl | rfl
  · exact Percent.decode_escape (by decide) (by decide) r
  · exact Percent.decode_escape (by decide) (by decide) r

theorem decode_of_lower_nil (h : lower s = []) : Percent.decode s = [] := by
  rw [List.map_eq_nil_iff.1 h]
  rfl

theorem decode_of_singleDot (h : isSingleDot s = true) : Percent.decode s = [46] := by
  rw [isSingleDot, Bool.or_eq_true, decide_eq_true_eq, decide_eq_true_eq] at h
  rcases h with h | h
  · rcases decode_of_lower_dot h with ⟨r, hr, hs⟩
    rw [hs, decode_of_lower_nil hr]
  · rcases decode_of_lower_escape h with ⟨r, hr, hs⟩
    rw [hs, decode_of_lower_nil hr]

theorem decode_of_doubleDot (h : isDoubleDot s = true) : Percent.decode s = [46, 46] := by
  simp only [isDoubleDot, Bool.or_eq_true, decide_eq_true_eq] at h
  -- the first dot, and what is left of the text
  have hfirst : ∃ r, (lower r = ".".toList ∨ lower r = "%2e".toList) ∧ Percent.decode s = 46 :: Percent.decode r := by
    rcases h with ((h | h) | h) | h
    · rcases decode_of_lower_dot h with ⟨r, hr, hs⟩
      exact ⟨r, Or.inl hr, hs⟩
    · rcases decode_of_lower_dot h with ⟨r, hr, hs⟩
      exact ⟨r, Or.inr hr, hs⟩
    · rcases decode_of_lower_escape h with ⟨r, hr, hs⟩
      exact ⟨r, Or.inl hr, hs⟩
    · rcases decode_of_lower_escape h with ⟨r, hr, hs⟩
      exact ⟨r, Or.inr hr, hs⟩
  rcases hfirst with ⟨r, hr, hs⟩
  have hsingle : isSingleDot r = true := by
    rwa [isSingleDot, Bool.or_eq_true, decide_eq_true_eq, decide_eq_true_eq]
  rw [hs, decode_of_singleDot hsingle]

theorem isPlain_encode_iff {keep : UInt8 → Bool} (hkeep : Percent.Readable keep) (hdot : keep 46 = true) {t : List Char} :
    isPlain (Percent.encode keep t) = true ↔ t ≠ ".".toList ∧ t ≠ "..".toList := by
  have hdots : ∀ n, Percent.encode keep (List.replicate n '.') = List.replicate n '.' := by
    intro n
    refine Percent.encode_of_keep fun c hc => ?_
    rw [List.eq_of_mem_replicate hc]
    exact ⟨by decide, hdot⟩
  rw [isPlain_iff]
  constructor
  · rintro ⟨hsingle, hdouble⟩
    constructor
    · rintro rfl
      rw [show ".".toList = List.replicate 1 '.' from rfl, hdots] at hsingle
      exact absurd hsingle (by decide)
    · rintro rfl
      rw [show "..".toList = List.replicate 2 '.' from rfl, hdots] at hdouble
      exact absurd hdouble (by decide)
  · rintro ⟨hsingle, hdouble⟩
    constructor
    · by_contra h
      rw [Bool.not_eq_false] at h
      exact hsingle (Percent.eq_of_decode hkeep (decode_of_singleDot h))
    · by_contra h
      rw [Bool.not_eq_false] at h
      exact hdouble (Percent.eq_of_decode hkeep (decode_of_doubleDot h))

/-! ## Paths without dots -/

theorem mem_walk {r : Segment} (h : r ∈ walk path ss) : r ∈ path ∨ r ∈ ss ∧ isPlain r = true := by
  induction ss generalizing path with
  | nil => exact Or.inl h
  | cons s ss ih =>
    rw [walk_cons] at h
    rcases ih h with h | ⟨hmem, hr⟩
    · rcases kind_cases s with hs | hs | hs
      · rw [step_double hs] at h
        exact Or.inl (List.dropLast_subset path h)
      · rw [step_single hs] at h
        exact Or.inl h
      · rw [step_plain hs] at h
        rcases List.mem_append.1 h with h | h
        · exact Or.inl h
        · rw [List.mem_singleton.1 h]
          exact Or.inr ⟨List.mem_cons_self, hs⟩
    · exact Or.inr ⟨List.mem_cons_of_mem _ hmem, hr⟩

/-- A resolved path has the segments that are no dots, and maybe an empty one at its end. -/
theorem mem_resolve {r : Segment} (h : r ∈ resolve [] ss) : (r ∈ ss ∨ r = []) ∧ isPlain r = true := by
  rcases List.eq_nil_or_concat ss with rfl | ⟨ss, s, rfl⟩
  · cases h
  · rw [List.concat_eq_append] at h ⊢
    have hpath : ∀ q ∈ walk [] ss, (q ∈ ss ++ [s] ∨ q = []) ∧ isPlain q = true := by
      intro q hq
      rcases (mem_walk hq).resolve_left List.not_mem_nil with ⟨hmem, hplain⟩
      exact ⟨Or.inl (List.mem_append_left _ hmem), hplain⟩
    rw [resolve_concat] at h
    rcases kind_cases s with hs | hs | hs
    · rw [finish, if_pos hs] at h
      rcases List.mem_append.1 h with h | h
      · exact hpath r (List.dropLast_subset _ h)
      · rw [List.mem_singleton.1 h]
        exact ⟨Or.inr rfl, rfl⟩
    · rw [finish_single hs] at h
      rcases List.mem_append.1 h with h | h
      · exact hpath r h
      · rw [List.mem_singleton.1 h]
        exact ⟨Or.inr rfl, rfl⟩
    · rw [finish_plain hs] at h
      rcases List.mem_append.1 h with h | h
      · exact hpath r h
      · rw [List.mem_singleton.1 h]
        exact ⟨Or.inl (List.mem_append_right _ (List.mem_singleton_self s)), hs⟩

/-- A path from the root is left as it is exactly if it has no dots. -/
theorem resolve_eq_self_iff : resolve [] ss = ss ↔ ∀ s ∈ ss, isPlain s = true := by
  constructor
  · intro h s hs
    rw [← h] at hs
    exact (mem_resolve hs).2
  · intro h
    rcases List.eq_nil_or_concat ss with rfl | ⟨ss, s, rfl⟩
    · rfl
    · rw [List.concat_eq_append] at h ⊢
      have hs := h s (List.mem_append_right _ (List.mem_singleton_self s))
      rw [resolve_concat, walk_plain fun r hr => h r (List.mem_append_left _ hr), finish_plain hs, List.nil_append]

theorem resolve_ne_nil (h : ss ≠ []) : resolve [] ss ≠ [] := by
  rcases (List.eq_nil_or_concat ss).resolve_left h with ⟨ss, s, rfl⟩
  rw [List.concat_eq_append, resolve_concat]
  rcases kind_cases s with hs | hs | hs
  · rw [finish, if_pos hs]
    exact List.append_ne_nil_of_right_ne_nil _ (List.cons_ne_nil _ _)
  · rw [finish_single hs]
    exact List.append_ne_nil_of_right_ne_nil _ (List.cons_ne_nil _ _)
  · rw [finish_plain hs]
    exact List.append_ne_nil_of_right_ne_nil _ (List.cons_ne_nil _ _)

theorem splitOnP_slash (t : List Char) : ('/' :: t).splitOnP isSlash = [] :: t.splitOnP isSlash :=
  List.splitOnP_append_cons_of_forall_mem (List.forall_mem_nil _) '/' (by decide) t

theorem segments_slash (t : List Char) : segments ('/' :: t) = [] :: segments t := by
  rw [segments, splitOnP_slash, List.map_cons]
  rfl

/-- Segments with nothing to cut or to escape in them, joined, are read back. -/
theorem segments_intercalate (hne : ss ≠ [])
    (h : ∀ s ∈ ss, ∀ c ∈ s, isSlash c = false ∧ c.toNat < 128 ∧ keepInPath (UInt8.ofNat c.toNat) = true) :
    segments (['/'].intercalate ss) = ss := by
  induction ss with
  | nil => exact absurd rfl hne
  | cons s ss ih =>
    rcases List.forall_mem_cons.1 h with ⟨hs, hss⟩
    have hcut : ∀ c ∈ s, isSlash c = false := fun c hc => (hs c hc).1
    have hwritten : Percent.encode keepInPath s = s := Percent.encode_of_keep fun c hc => (hs c hc).2
    cases ss with
    | nil => rw [List.intercalate_singleton, segments, List.splitOnP_eq_singleton hcut, List.map_singleton, hwritten]
    | cons r ss =>
      have hrest := ih (List.cons_ne_nil r ss) hss
      rw [segments] at hrest
      rw [List.intercalate_cons_cons, List.append_assoc, List.singleton_append, segments,
        List.splitOnP_append_cons_of_forall_mem hcut '/' (by decide), List.map_cons, hwritten, hrest]

end UrlPath
