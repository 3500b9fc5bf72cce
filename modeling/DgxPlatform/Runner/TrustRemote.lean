import DgxPlatform.Runner.LaunchRequest

/-! # The repositories whose code is trusted

`validate_args` lets `--trust-remote-code` through when the repository of the model
id is on a list. For a path of the cache the repository is read off a marker,
`models--<owner>--<name>/snapshots/`, wherever in the path it stands.
-/

namespace Runner.Args

open Launching Text

/-! ## The shortest part -/

section
variable {α : Type} {p : Char → Bool} {sep part t : List Char} {next : List Char → Option α} {a : α}

/-- A part that the pattern allows, with the separator and what `next` reads behind it. -/
structure Cuts (p : Char → Bool) (sep : List Char) (next : List Char → Option α) (t part : List Char)
    (a : α) : Prop where
  ne : part ≠ []
  all : ∀ c ∈ part, p c = true
  behind : ∃ rest, t = part ++ sep ++ rest ∧ next rest = some a

theorem cut_eq_some {n : Nat} (hn : n < t.length) :
    (if (t.take (n + 1)).all p ∧ sep <+: t.drop (n + 1) then
      (next ((t.drop (n + 1)).drop sep.length)).map fun a => (t.take (n + 1), a)
    else none) = some (part, a) ↔ part.length = n + 1 ∧ Cuts p sep next t part a := by
  constructor
  · intro h
    split_ifs at h with hcut
    obtain ⟨b, hb, heq⟩ := Option.map_eq_some_iff.1 h
    cases heq
    obtain ⟨rest, hrest⟩ := hcut.2
    refine ⟨by rw [List.length_take]; omega, ?_, List.all_eq_true.1 hcut.1, rest, ?_, ?_⟩
    · exact List.ne_nil_of_length_pos (by rw [List.length_take]; omega)
    · rw [List.append_assoc, hrest, List.take_append_drop]
    · rwa [← hrest, List.drop_left] at hb
  · rintro ⟨hlen, hcuts⟩
    obtain ⟨rest, rfl, hnext⟩ := hcuts.behind
    rw [List.append_assoc, ← hlen, List.take_left, List.drop_left, List.drop_left,
      if_pos ⟨List.all_eq_true.2 hcuts.all, List.prefix_append sep rest⟩, hnext]
    rfl

theorem findSome?_range {β : Type} {f : Nat → Option β} {m : Nat} {b : β} :
    (List.range m).findSome? f = some b ↔ ∃ n < m, f n = some b ∧ ∀ k < n, f k = none := by
  induction m with
  | zero => simp
  | succ m ih =>
    rw [List.range_succ, List.findSome?_append, Option.or_eq_some_iff, ih,
      List.findSome?_singleton, List.findSome?_eq_none_iff]
    constructor
    · rintro (⟨n, hn, hfound⟩ | ⟨hnone, hfound⟩)
      · exact ⟨n, by omega, hfound⟩
      · exact ⟨m, by omega, hfound, fun k hk => hnone k (List.mem_range.2 hk)⟩
    · rintro ⟨n, hn, hfound, hnone⟩
      by_cases hlast : n = m
      · subst hlast
        exact .inr ⟨fun k hk => hnone k (List.mem_range.1 hk), hfound⟩
      · exact .inl ⟨n, by omega, hfound, hnone⟩

theorem Cuts.length_le {part : List Char} (h : Cuts p sep next t part a) :
    0 < part.length ∧ part.length ≤ t.length := by
  obtain ⟨rest, rfl, -⟩ := h.behind
  refine ⟨List.length_pos_of_ne_nil h.ne, ?_⟩
  simp only [List.length_append]
  omega

theorem shortest_eq_some_iff : shortest p sep next t = some (part, a) ↔
    Cuts p sep next t part a ∧
      ∀ part' a', Cuts p sep next t part' a' → part.length ≤ part'.length := by
  unfold shortest
  rw [findSome?_range]
  constructor
  · rintro ⟨n, hn, hfound, hnone⟩
    obtain ⟨hlen, hcuts⟩ := (cut_eq_some hn).1 hfound
    refine ⟨hcuts, fun part' a' hcuts' => ?_⟩
    by_contra hshort
    obtain ⟨hpos, hle⟩ := hcuts'.length_le
    -- a shorter part would have been found before
    have hfound' := (cut_eq_some (n := part'.length - 1) (by omega)).2 ⟨by omega, hcuts'⟩
    rw [hnone _ (by omega)] at hfound'
    cases hfound'
  · rintro ⟨hcuts, hmin⟩
    obtain ⟨hpos, hle⟩ := hcuts.length_le
    refine ⟨part.length - 1, by omega, (cut_eq_some (by omega)).2 ⟨by omega, hcuts⟩, fun k hk => ?_⟩
    rw [Option.eq_none_iff_forall_ne_some]
    rintro ⟨part', a'⟩ hfound'
    obtain ⟨hlen, hcuts'⟩ := (cut_eq_some (by omega)).1 hfound'
    have hle' := hmin part' a' hcuts'
    omega

theorem exists_shortest (h : Cuts p sep next t part a) :
    ∃ part' a', shortest p sep next t = some (part', a') := by
  obtain ⟨hpos, hle⟩ := h.length_le
  have hfound := (cut_eq_some (n := part.length - 1) (by omega)).2 ⟨by omega, h⟩
  have hsome : (shortest p sep next t).isSome = true := by
    rw [shortest, List.findSome?_isSome_iff]
    exact ⟨part.length - 1, List.mem_range.2 (by omega), by rw [hfound]; rfl⟩
  obtain ⟨⟨part', a'⟩, hr⟩ := Option.isSome_iff_exists.1 hsome
  exact ⟨part', a', hr⟩

end

/-! ## Markers -/

/-- `models--<owner>--<name>/snapshots/`. -/
def markerText (owner name : List Char) : List Char :=
  "models--".toList ++ (owner ++ "--".toList ++ (name ++ "/snapshots/".toList))

theorem markerText_append (owner name rest : List Char) :
    markerText owner name ++ rest =
      "models--".toList ++ (owner ++ "--".toList ++ (name ++ "/snapshots/".toList) ++ rest) :=
  List.append_assoc _ _ _

/-- A text begins with a marker. -/
def HasMarker (u owner name : List Char) : Prop :=
  markerText owner name <+: u ∧ owner ≠ [] ∧ '/' ∉ owner ∧ name ≠ [] ∧ '\n' ∉ name

/-- No marker begins inside `pre`. -/
def NoMarkerIn (pre u : List Char) : Prop :=
  ∀ p v, pre = p ++ v → v ≠ [] → ∀ owner name, ¬ HasMarker (v ++ u) owner name

/-- No `--` begins in the owner, not even with the dashes behind it. -/
def PlainOwner (owner : List Char) : Prop := ¬ "--".toList <:+: owner ++ ['-']

/-- The second part of the pattern. -/
def nameCut (t : List Char) : Option (List Char × Unit) :=
  shortest (· ≠ '\n') "/snapshots/".toList (fun _ => some ()) t

/-- What the pattern reads at the start of a text. -/
def markerAt (u : List Char) : Option (List Char × List Char) :=
  if "models--".toList <+: u then
    (shortest (· ≠ '/') "--".toList nameCut (u.drop 8)).map fun r => (r.1, r.2.1)
  else none

theorem snapshotRepo_eq (t : List Char) : snapshotRepo t = t.tails.findSome? markerAt := rfl

/-- The parts of an owner and a name as the pattern of an id has them. -/
structure IdParts (owner name : List Char) : Prop where
  owner : nameShape 60 owner = true
  name : nameShape 80 name = true

theorem of_nameShape {n : Nat} {t : List Char} (h : nameShape n t = true) :
    t ≠ [] ∧ (∀ c ∈ t.head?, c.isAlphanum = true) ∧ ∀ c ∈ t, c ≠ '/' ∧ c ≠ '\n' := by
  cases t with
  | nil => cases h
  | cons c t =>
    simp only [nameShape, Bool.and_eq_true, List.all_eq_true] at h
    obtain ⟨⟨hfirst, hrest⟩, -⟩ := h
    have hchar : ∀ d ∈ c :: t, Download.repoChar d = true := by
      refine List.forall_mem_cons.2 ⟨?_, hrest⟩
      simp [Download.repoChar, hfirst]
    refine ⟨List.cons_ne_nil c t, fun d hd => ?_, fun d hd => ?_⟩
    · obtain rfl : c = d := Option.some.inj hd
      exact hfirst
    · constructor
      all_goals
        rintro rfl
        exact absurd (hchar _ hd) (by decide)

variable {owner name u t : List Char}

theorem nameCut_cuts {name t : List Char} : Cuts (· ≠ '\n') "/snapshots/".toList (fun _ => some ()) t name () ↔
    name ≠ [] ∧ '\n' ∉ name ∧ name ++ "/snapshots/".toList <+: t := by
  constructor
  · rintro ⟨hne, hall, rest, rfl, -⟩
    refine ⟨hne, fun h => ?_, List.prefix_append _ _⟩
    simpa using hall _ h
  · rintro ⟨hne, hline, rest, rfl⟩
    refine ⟨hne, fun c hc => decide_eq_true fun h => hline (h ▸ hc), rest, rfl, rfl⟩

theorem nameCut_snapshots (hname : nameShape 80 name = true) (rest : List Char) :
    nameCut (name ++ "/snapshots/".toList ++ rest) = some (name, ()) := by
  obtain ⟨hne, -, hchars⟩ := of_nameShape hname
  refine shortest_eq_some_iff.2 ⟨nameCut_cuts.2 ⟨hne, fun h => (hchars _ h).2 rfl,
    List.prefix_append _ _⟩, fun name' u' hcuts' => ?_⟩
  by_contra hshort
  obtain ⟨-, -, hprefix⟩ := nameCut_cuts.1 hcuts'
  -- the separator would begin inside the name, which has no slash
  have hslash : name' ++ ['/'] <+: name := by
    refine List.prefix_of_prefix_length_le ?_ (List.prefix_append name ("/snapshots/".toList ++ rest)) ?_
    · rw [← List.append_assoc]
      exact List.IsPrefix.trans ⟨"snapshots/".toList, by simp⟩ hprefix
    · simp only [List.length_append, List.length_singleton]
      omega
  exact (hchars '/' (hslash.subset (by simp))).1 rfl

theorem markerAt_models (t : List Char) :
    markerAt ("models--".toList ++ t) =
      (shortest (· ≠ '/') "--".toList nameCut t).map fun r => (r.1, r.2.1) := by
  have hdrop : ("models--".toList ++ t).drop 8 = t := List.drop_left' (by decide)
  rw [markerAt, if_pos (List.prefix_append _ _), hdrop]

theorem hasMarker_of_markerAt (h : markerAt u = some (owner, name)) : HasMarker u owner name := by
  by_cases hmodels : "models--".toList <+: u
  · obtain ⟨t, rfl⟩ := hmodels
    rw [markerAt_models] at h
    obtain ⟨⟨part, n, x⟩, hr, heq⟩ := Option.map_eq_some_iff.1 h
    cases heq
    obtain ⟨hcuts, -⟩ := shortest_eq_some_iff.1 hr
    obtain ⟨rest, ht, hname⟩ := hcuts.behind
    obtain ⟨hne, hline, rest', hrest⟩ := nameCut_cuts.1 (shortest_eq_some_iff.1 hname).1
    refine ⟨⟨rest', ?_⟩, hcuts.ne, fun h => ?_, hne, hline⟩
    · rw [markerText_append, ht, ← hrest]
      simp only [List.append_assoc]
    · simpa using hcuts.all _ h
  · rw [markerAt, if_neg hmodels] at h
    cases h

theorem markerAt_isSome (h : HasMarker u owner name) : (markerAt u).isSome = true := by
  obtain ⟨⟨rest, rfl⟩, hne, hslash, hname, hline⟩ := h
  obtain ⟨name', x, hname'⟩ : ∃ name' x,
      nameCut (name ++ "/snapshots/".toList ++ rest) = some (name', x) :=
    exists_shortest (nameCut_cuts.2 ⟨hname, hline, List.prefix_append _ _⟩)
  have hcuts : Cuts (· ≠ '/') "--".toList nameCut
      (owner ++ "--".toList ++ (name ++ "/snapshots/".toList) ++ rest) owner (name', x) :=
    ⟨hne, fun c hc => decide_eq_true fun h => hslash (h ▸ hc),
      name ++ "/snapshots/".toList ++ rest, by simp only [List.append_assoc], hname'⟩
  obtain ⟨part, a, hpart⟩ := exists_shortest hcuts
  rw [markerText_append, markerAt_models, hpart]
  rfl

theorem markerAt_eq_none_iff : markerAt u = none ↔ ∀ owner name, ¬ HasMarker u owner name := by
  constructor
  · intro hnone owner name h
    have hsome := markerAt_isSome h
    rw [hnone] at hsome
    cases hsome
  · intro h
    rw [Option.eq_none_iff_forall_ne_some]
    rintro ⟨owner, name⟩ hsome
    exact h owner name (hasMarker_of_markerAt hsome)

/-- Where `--` begins in the owner, what stands before it would be a shorter owner. -/
theorem cuts_of_dashes {a b : List Char} (hids : IdParts owner name)
    (hdashes : a ++ "--".toList ++ b = owner ++ ['-']) (rest : List Char) :
    a.length < owner.length ∧ ∃ r, Cuts (· ≠ '/') "--".toList nameCut
      (owner ++ "--".toList ++ (name ++ "/snapshots/".toList) ++ rest) a r := by
  obtain ⟨hone, hohead, hochars⟩ := of_nameShape hids.owner
  obtain ⟨-, -, hnchars⟩ := of_nameShape hids.name
  have hlen : a.length < owner.length := by
    have hlens := congrArg List.length hdashes
    simp at hlens
    omega
  have ha : a <+: owner :=
    List.prefix_of_prefix_length_le ⟨"--".toList ++ b, by simpa using hdashes⟩
      (List.prefix_append owner ['-']) (by omega)
  have hane : a ≠ [] := by
    rintro rfl
    obtain ⟨c, cs, rfl⟩ := List.exists_cons_of_ne_nil hone
    have hc : c = '-' := by
      have hhead := congrArg List.head? hdashes
      simpa using hhead.symm
    have halnum := hohead c rfl
    rw [hc] at halnum
    exact absurd halnum (by decide)
  have htext : owner ++ "--".toList ++ (name ++ "/snapshots/".toList) ++ rest =
      a ++ "--".toList ++ (b ++ '-' :: name ++ "/snapshots/".toList ++ rest) := by
    have hdash : owner ++ "--".toList = a ++ "--".toList ++ b ++ ['-'] := by
      rw [hdashes]
      simp
    rw [hdash]
    simp
  have hb : '\n' ∉ b ++ '-' :: name := by
    have hbowner : ∀ c ∈ b, c ∈ owner ++ ['-'] := fun c hc => by
      rw [← hdashes]
      simp [hc]
    intro hmem
    rcases List.mem_append.1 hmem with h | h
    · rcases List.mem_append.1 (hbowner _ h) with h | h
      · exact (hochars _ h).2 rfl
      · exact absurd (List.mem_singleton.1 h) (by decide)
    · rcases List.mem_cons.1 h with h | h
      · exact absurd h (by decide)
      · exact (hnchars _ h).2 rfl
  obtain ⟨n, x, hn⟩ : ∃ n x, nameCut (b ++ '-' :: name ++ "/snapshots/".toList ++ rest) = some (n, x) :=
    exists_shortest (nameCut_cuts.2 ⟨by simp, hb, List.prefix_append _ _⟩)
  exact ⟨hlen, (n, x), hane, fun c hc => decide_eq_true (hochars c (ha.subset hc)).1, _, htext, hn⟩

theorem shortest_owner (hids : IdParts owner name) (hplain : PlainOwner owner) (rest : List Char) :
    shortest (· ≠ '/') "--".toList nameCut (owner ++ "--".toList ++ (name ++ "/snapshots/".toList) ++ rest) =
      some (owner, name, ()) := by
  obtain ⟨hone, -, hochars⟩ := of_nameShape hids.owner
  have hslash : ∀ c ∈ owner, decide (c ≠ '/') = true := fun c hc => decide_eq_true (hochars c hc).1
  have hcut : nameCut (name ++ "/snapshots/".toList ++ rest) = some (name, ()) :=
    nameCut_snapshots hids.name rest
  refine shortest_eq_some_iff.2 ⟨⟨hone, hslash, _, by simp only [List.append_assoc], hcut⟩, ?_⟩
  intro part' a' hcuts'
  by_contra hshort
  obtain ⟨rest', htext, -⟩ := hcuts'.behind
  -- its dashes begin inside the owner
  have hdashes : part' ++ "--".toList <+: owner ++ ['-'] := by
    refine List.prefix_of_prefix_length_le ⟨rest', htext.symm⟩
      ⟨'-' :: (name ++ "/snapshots/".toList) ++ rest, by simp⟩ ?_
    simp
    omega
  exact hplain ((List.suffix_append part' "--".toList).isInfix.trans hdashes.isInfix)

theorem markerAt_eq_some_iff (hids : IdParts owner name) :
    markerAt u = some (owner, name) ↔ PlainOwner owner ∧ markerText owner name <+: u := by
  constructor
  · intro h
    have hmarker := (hasMarker_of_markerAt h).1
    refine ⟨?_, hmarker⟩
    rintro ⟨a, b, hdashes⟩
    obtain ⟨rest, rfl⟩ := hmarker
    rw [markerText_append, markerAt_models] at h
    obtain ⟨⟨part, n, x⟩, hr, heq⟩ := Option.map_eq_some_iff.1 h
    cases heq
    obtain ⟨hlen, r, hcuts⟩ := cuts_of_dashes hids hdashes rest
    have hmin : part.length ≤ a.length := (shortest_eq_some_iff.1 hr).2 a r hcuts
    exact absurd hlen (Nat.not_lt.2 hmin)
  · rintro ⟨hplain, rest, rfl⟩
    rw [markerText_append, markerAt_models, shortest_owner hids hplain rest]
    rfl

theorem findSome?_tails {α β : Type} {f : List α → Option β} {t : List α} {b : β} :
    t.tails.findSome? f = some b ↔
      ∃ pre u, t = pre ++ u ∧ f u = some b ∧ ∀ p v, pre = p ++ v → v ≠ [] → f (v ++ u) = none := by
  constructor
  · intro h
    induction t with
    | nil =>
      refine ⟨[], [], rfl, by simpa using h, fun p v hv hne => ?_⟩
      exact absurd (List.append_eq_nil_iff.1 hv.symm).2 hne
    | cons c t ih =>
      rw [List.tails_cons, List.findSome?_cons] at h
      cases hc : f (c :: t) with
      | some b' =>
        rw [hc] at h
        refine ⟨[], c :: t, rfl, hc.trans h, fun p v hv hne => ?_⟩
        exact absurd (List.append_eq_nil_iff.1 hv.symm).2 hne
      | none =>
        rw [hc] at h
        obtain ⟨pre, u, rfl, hu, hbefore⟩ := ih h
        refine ⟨c :: pre, u, rfl, hu, fun p v hv hne => ?_⟩
        cases p with
        | nil =>
          rw [List.nil_append] at hv
          rw [← hv]
          exact hc
        | cons d p =>
          rw [List.cons_append] at hv
          exact hbefore p v (List.cons.inj hv).2 hne
  · rintro ⟨pre, u, rfl, hu, hbefore⟩
    induction pre with
    | nil =>
      cases u with
      | nil => simpa using hu
      | cons c u =>
        rw [List.nil_append, List.tails_cons, List.findSome?_cons, hu]
    | cons c pre ih =>
      rw [List.cons_append, List.tails_cons, List.findSome?_cons,
        show f (c :: (pre ++ u)) = none from hbefore [] (c :: pre) rfl (List.cons_ne_nil _ _)]
      exact ih fun p v hv hne => hbefore (c :: p) v (by rw [hv, List.cons_append]) hne

/-- What is read of a path is its first marker, and that only if the owner ends at the first
`--` of it. -/
theorem snapshotRepo_eq_some_iff (hids : IdParts owner name) :
    snapshotRepo t = some (owner, name) ↔
      PlainOwner owner ∧
        ∃ pre post, t = pre ++ (markerText owner name ++ post) ∧
          NoMarkerIn pre (markerText owner name ++ post) := by
  rw [snapshotRepo_eq, findSome?_tails]
  constructor
  · rintro ⟨pre, u, rfl, hu, hbefore⟩
    obtain ⟨hplain, post, rfl⟩ := (markerAt_eq_some_iff hids).1 hu
    exact ⟨hplain, pre, post, rfl, fun p v hv hne => markerAt_eq_none_iff.1 (hbefore p v hv hne)⟩
  · rintro ⟨hplain, pre, post, rfl, hbefore⟩
    refine ⟨pre, _, rfl, (markerAt_eq_some_iff hids).2 ⟨hplain, List.prefix_append _ _⟩, ?_⟩
    exact fun p v hv hne => markerAt_eq_none_iff.2 (hbefore p v hv hne)

/-! ## The grant -/

/-- The directory of a repository's snapshots in the cache. -/
def snapshotDir (hfHome owner name : List Char) : List Char :=
  hfHome ++ "/hub/".toList ++ markerText owner name

/-- The model of a listed repository: its id, or a path below its snapshots. -/
def Listed (hfHome hfId : List Char) : Prop :=
  hfId ∈ TRUST_RC_MODELS ∨
    ∃ owner name post, owner ++ '/' :: name ∈ TRUST_RC_MODELS ∧
      hfId = snapshotDir hfHome owner name ++ post

/-- Whatever the arguments, `--trust-remote-code` is let through for a listed repository
only. -/
def GrantedToListed (hfHome hfId : List Char) : Prop :=
  ∀ engine ∈ ENGINES, ∀ extra tokens, validateArgs extra engine hfId = .ok tokens →
    trustRemoteCode ∈ tokens → Listed hfHome hfId

/-- The first marker of the id is not that of a listed repository. -/
def NamesNoListed (hfId : List Char) : Prop :=
  ∀ owner name pre post, owner ++ '/' :: name ∈ TRUST_RC_MODELS →
    hfId = pre ++ (markerText owner name ++ post) →
      ¬ NoMarkerIn pre (markerText owner name ++ post)

theorem idParts_unique {owner' name' : List Char} (h : '/' ∉ owner) (h' : '/' ∉ owner')
    (heq : owner ++ '/' :: name = owner' ++ '/' :: name') : owner = owner' ∧ name = name' := by
  have htake : ∀ {o n : List Char}, '/' ∉ o → (o ++ '/' :: n).takeWhile (fun c => c != '/') = o := by
    intro o n ho
    rw [List.takeWhile_append_of_pos fun c hc => bne_iff_ne.2 fun e : c = '/' => ho (e ▸ hc)]
    simp
  have howner : owner = owner' := by
    rw [← htake (n := name) h, ← htake (n := name') h', heq]
  subst howner
  exact ⟨rfl, (List.cons.inj (List.append_cancel_left heq)).2⟩

/-- The ids of the list have the shape of an id, and their marker is read back. -/
theorem trusted_parts (h : owner ++ '/' :: name ∈ TRUST_RC_MODELS) :
    '/' ∉ owner ∧ IdParts owner name ∧ PlainOwner owner := by
  have hid : owner ++ '/' :: name =
      "nvidia".toList ++ '/' :: "NVIDIA-Nemotron-3.5-Super-VL-120B-A12B-NVFP4".toList := by
    rw [List.mem_singleton.1 h]
    decide
  have hslash : '/' ∉ owner := by
    intro hmem
    have hcount := congrArg (List.count '/') hid
    have hone : List.count '/' ("nvidia".toList ++
        '/' :: "NVIDIA-Nemotron-3.5-Super-VL-120B-A12B-NVFP4".toList) = 1 := by decide
    have hpos := List.count_pos_iff.2 hmem
    rw [hone, List.count_append, List.count_cons_self] at hcount
    omega
  obtain ⟨rfl, rfl⟩ := idParts_unique hslash (by decide) hid
  refine ⟨hslash, ⟨?_, ?_⟩, ?_⟩
  · decide
  · decide
  · unfold PlainOwner
    decide

theorem repoIdOf_of_some (h : snapshotRepo t = some (owner, name)) :
    repoIdOf t = owner ++ '/' :: name := by
  rw [repoIdOf, h]

theorem hasMarker_markerText (hids : IdParts owner name) (post : List Char) :
    HasMarker (markerText owner name ++ post) owner name := by
  obtain ⟨hone, -, hochars⟩ := of_nameShape hids.owner
  obtain ⟨hnne, -, hnchars⟩ := of_nameShape hids.name
  exact ⟨List.prefix_append _ _, hone, fun h => (hochars _ h).1 rfl, hnne,
    fun h => (hnchars _ h).2 rfl⟩

theorem snapshotRepo_ne_none (hids : IdParts owner name) {hfHome post : List Char} :
    snapshotRepo (snapshotDir hfHome owner name ++ post) ≠ none := by
  intro hnone
  rw [snapshotRepo_eq, List.findSome?_eq_none_iff] at hnone
  have hsuffix : markerText owner name ++ post <:+ snapshotDir hfHome owner name ++ post := by
    rw [snapshotDir, List.append_assoc]
    exact List.suffix_append _ _
  have hat := hnone _ ((List.mem_tails _ _).2 hsuffix)
  exact markerAt_eq_none_iff.1 hat _ _ (hasMarker_markerText hids post)

theorem not_mem_of_snapshotRepo (h : snapshotRepo t = some (owner, name)) : '/' ∉ owner := by
  rw [snapshotRepo_eq, findSome?_tails] at h
  obtain ⟨-, u, -, hu, -⟩ := h
  exact (hasMarker_of_markerAt hu).2.2.1

/-- For the engines of a launch `--trust-remote-code` comes from the list only. -/
theorem repoIdOf_of_granted {engine extra hfId : List Char} {tokens : List (List Char)}
    (hengine : engine ∈ ENGINES) (h : validateArgs extra engine hfId = .ok tokens)
    (htrust : trustRemoteCode ∈ tokens) : repoIdOf hfId ∈ TRUST_RC_MODELS := by
  have hbools : trustRemoteCode ∉ (flagsFor engine).bools := by
    have hall : ENGINES.all (fun e => !(flagsFor e).bools.contains trustRemoteCode) = true := by
      decide +kernel
    have hno := List.all_eq_true.1 hall engine hengine
    simpa using hno
  obtain ⟨-, items, hitems⟩ := validateArgs_eq_ok.1 h
  rw [hitems.tokens] at htrust
  obtain ⟨i, hi, hmem⟩ := List.mem_flatMap.1 htrust
  have hallowed := hitems.allowed i hi
  cases i with
  | flag f =>
    obtain rfl := List.mem_singleton.1 hmem
    have halone : (flagsFor engine).standsAlone hfId trustRemoteCode = true := hallowed
    simpa [Flags.standsAlone, hbools] using halone
  | value f v =>
    rcases List.mem_cons.1 hmem with rfl | hv
    · -- it takes no value
      have hok := List.all_eq_true.1 (tablesOk_flagsFor engine) _ hallowed.1
      simp at hok
    · obtain rfl := List.mem_singleton.1 hv
      exact absurd hallowed.2 (by decide)

theorem validateArgs_trust {hfId : List Char} (h : repoIdOf hfId ∈ TRUST_RC_MODELS) :
    validateArgs trustRemoteCode "vllm".toList hfId = .ok [trustRemoteCode] := by
  refine validateArgs_eq_ok.2 ⟨by decide, [.flag trustRemoteCode], reading_nil.flag ?_⟩
  simp [Flags.standsAlone, h]

/-- `--trust-remote-code` is granted to the listed repositories only exactly if the first marker
of the id is not theirs, or the id is theirs; and a directory of the cache is read back exactly if
its marker is the first of the path and `--` does not begin in the owner. -/
theorem trust_remote_iff (hfHome : List Char) :
    (∀ hfId, GrantedToListed hfHome hfId ↔ NamesNoListed hfId ∨ Listed hfHome hfId) ∧
      ∀ owner name post, IdParts owner name →
        (repoIdOf (snapshotDir hfHome owner name ++ post) = owner ++ '/' :: name ↔
          PlainOwner owner ∧
            ∃ pre post', snapshotDir hfHome owner name ++ post =
                pre ++ (markerText owner name ++ post') ∧
              NoMarkerIn pre (markerText owner name ++ post')) := by
  constructor
  · intro hfId
    constructor
    · intro hgranted
      by_contra hno
      obtain ⟨hnames, hlisted⟩ := not_or.1 hno
      refine hnames fun owner name pre post hmem heq hfirst => hlisted ?_
      -- the marker is read, so the flag alone is accepted
      obtain ⟨-, hids, hplain⟩ := trusted_parts hmem
      have hrepo := repoIdOf_of_some ((snapshotRepo_eq_some_iff hids).2
        ⟨hplain, pre, post, heq, hfirst⟩)
      exact hgranted "vllm".toList (by decide) trustRemoteCode _
        (validateArgs_trust (hrepo ▸ hmem)) (List.mem_singleton.2 rfl)
    · rintro (hnames | hlisted)
      · intro engine hengine extra tokens hok htrust
        have hrepo := repoIdOf_of_granted hengine hok htrust
        cases hs : snapshotRepo hfId with
        | none =>
            rw [repoIdOf, hs] at hrepo
            exact .inl hrepo
        | some r =>
            obtain ⟨owner, name⟩ := r
            rw [repoIdOf_of_some hs] at hrepo
            obtain ⟨-, pre, post, heq, hfirst⟩ :=
              (snapshotRepo_eq_some_iff (trusted_parts hrepo).2.1).1 hs
            exact absurd hfirst (hnames owner name pre post hrepo heq)
      · exact fun _ _ _ _ _ _ => hlisted
  · intro owner name post hids
    rw [← snapshotRepo_eq_some_iff hids]
    refine ⟨fun h => ?_, repoIdOf_of_some⟩
    have hslash : '/' ∉ owner := fun hmem => ((of_nameShape hids.owner).2.2 _ hmem).1 rfl
    cases hs : snapshotRepo (snapshotDir hfHome owner name ++ post) with
    | none => exact absurd hs (snapshotRepo_ne_none hids)
    | some r =>
        obtain ⟨owner', name'⟩ := r
        rw [repoIdOf_of_some hs] at h
        obtain ⟨rfl, rfl⟩ := idParts_unique (not_mem_of_snapshotRepo hs) hslash h
        rfl

def trustedOwner : List Char := "nvidia".toList

def trustedName : List Char := "NVIDIA-Nemotron-3.5-Super-VL-120B-A12B-NVFP4".toList

/-- The listed repository in the cache: its marker is the first of the path. -/
theorem trust_remote_cache :
    repoIdOf (snapshotDir "/hf".toList trustedOwner trustedName ++ "0f3".toList) =
      trustedOwner ++ '/' :: trustedName := by
  have hids : IdParts trustedOwner trustedName := ⟨by decide, by decide⟩
  refine (((trust_remote_iff "/hf".toList).2 trustedOwner trustedName "0f3".toList hids)).2 ⟨?_, ?_⟩
  · unfold PlainOwner
    decide
  · refine ⟨"/hf/hub/".toList, "0f3".toList, by decide +kernel, ?_⟩
    -- the only letter of the start with which a marker begins is missing
    intro p v hpre hne owner name hmarker
    have hm : 'm' ∉ v := by
      intro hmem
      have hstart : 'm' ∈ "/hf/hub/".toList := by
        rw [hpre]
        exact List.mem_append_right p hmem
      exact absurd hstart (by decide)
    obtain ⟨c, v, rfl⟩ := List.exists_cons_of_ne_nil hne
    obtain ⟨rest, hrest⟩ := hmarker.1
    rw [markerText_append] at hrest
    have hhead : 'm' = c := (List.cons.inj hrest).1
    exact hm (hhead ▸ List.mem_cons_self)

/-- A directory that anyone can make up. -/
def madeUpPath : List Char := "/tmp/".toList ++ markerText trustedOwner trustedName ++ "x".toList

/-- Outside the cache the flag is granted as well; and an owner with `--` is cut there. -/
theorem made_up_path_granted :
    acceptsId madeUpPath = true ∧
      validateArgs trustRemoteCode "vllm".toList madeUpPath = .ok [trustRemoteCode] ∧
      ¬ Listed "/var/lib/vllm-runner/.cache/huggingface".toList madeUpPath ∧
      IdParts "a--b".toList "c".toList ∧
      repoIdOf (snapshotDir "/var/lib/vllm-runner/.cache/huggingface".toList "a--b".toList
        "c".toList ++ "x".toList) = "a/b--c".toList := by
  refine ⟨by decide +kernel, by decide +kernel, ?_, ⟨by decide, by decide⟩, by decide +kernel⟩
  rintro (hid | ⟨owner, name, post, -, heq⟩)
  · revert hid
    decide +kernel
  · have hprefix : "/var/lib/vllm-runner/.cache/huggingface".toList <+: madeUpPath := by
      rw [heq, snapshotDir, List.append_assoc, List.append_assoc]
      exact List.prefix_append _ _
    revert hprefix
    decide +kernel

end Runner.Args
