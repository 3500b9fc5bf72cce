import DgxPlatform.Portal.AskMessage

/-! # The questionnaire that is stored

`trimAfterAsk` cuts a message behind the first fence that follows its `ask` block. The questions are
read again from what is left.
-/

namespace Portal.Ask

open Text

/-! ## Reading up to a backtick -/

section Ticks

variable {x w : List Char} {p : Char → Bool} {fold : Char → Char} {word : List Char}

theorem takeWhile_tick (hp : p '\x60' = false) (x w : List Char) :
    (x ++ '\x60' :: w).takeWhile p = x.takeWhile p := by
  have hstop : ('\x60' :: w).takeWhile p = [] := List.takeWhile_cons_of_neg (by simp [hp])
  rw [List.takeWhile_append, hstop, List.append_nil]
  split
  · next hall => exact ((List.takeWhile_prefix p).eq_of_length hall).symm
  · rfl

theorem skip_tick (x w : List Char) : skip (x ++ '\x60' :: w) = skip x ++ '\x60' :: w := by
  have hstop : ('\x60' :: w).dropWhile isJsSpace = '\x60' :: w := List.dropWhile_cons_of_neg (by decide)
  unfold skip
  rw [List.dropWhile_append, hstop]
  split
  · next hall => rw [List.isEmpty_iff.1 hall, List.nil_append]
  · rfl

theorem expect_tick (hfold : fold '\x60' = '\x60') (hword : '\x60' ∉ word) (x w : List Char) :
    expect fold word (x ++ '\x60' :: w) = (expect fold word x).map (· ++ '\x60' :: w) := by
  rcases Nat.lt_or_ge x.length word.length with hlt | hle
  · -- the backtick would be read
    have hlong : expect fold word (x ++ '\x60' :: w) = none := by
      refine if_neg fun h => hword ?_
      rw [← h]
      refine List.mem_map.2 ⟨'\x60', ?_, hfold⟩
      rw [List.take_append, List.take_of_length_le hlt.le]
      refine List.mem_append_right _ ?_
      obtain ⟨k, hk⟩ : ∃ k, word.length - x.length = k + 1 := ⟨word.length - x.length - 1, by omega⟩
      rw [hk, List.take_succ_cons]
      exact List.mem_cons_self
    have hshort : expect fold word x = none := by
      refine if_neg fun h => ?_
      have hlen := congrArg List.length h
      rw [List.length_map, List.length_take] at hlen
      omega
    rw [hlong, hshort, Option.map_none]
  · unfold expect
    rw [List.take_append_of_le_length hle, List.drop_append_of_le_length hle]
    split <;> rfl

theorem lineEnd_tick (label x w : List Char) : lineEnd label (x ++ '\x60' :: w) = lineEnd label x := by
  have hle : (x.takeWhile isBlank).length ≤ x.length := (List.takeWhile_prefix isBlank).length_le
  unfold lineEnd
  rw [takeWhile_tick (by decide)]
  dsimp only
  rw [List.drop_append_of_le_length hle]
  cases x.drop (x.takeWhile isBlank).length with
  | nil => rfl
  | cons c y =>
    rw [List.cons_append]
    by_cases hc : c = '\n'
    · subst hc
      rfl
    · simp [hc]

/-- Reading a word behind white space, as a step of an expression. -/
theorem bind_expect_tick (hfold : fold '\x60' = '\x60') (hword : '\x60' ∉ word) (o : Option (List Char))
    (w : List Char) :
    ((o.map (· ++ '\x60' :: w)).bind fun t => expect fold word (skip t)) =
      (o.bind fun t => expect fold word (skip t)).map (· ++ '\x60' :: w) := by
  cases o with
  | none => rfl
  | some t =>
    rw [Option.map_some, Option.bind_some, Option.bind_some, skip_tick, expect_tick hfold hword]

theorem startsQuestions_tick (hfold : fold '\x60' = '\x60') (x w : List Char) :
    startsQuestions fold (x ++ '\x60' :: w) = startsQuestions fold x := by
  unfold startsQuestions
  rw [skip_tick, expect_tick rfl (by decide), bind_expect_tick hfold (by decide), bind_expect_tick rfl (by decide),
    bind_expect_tick rfl (by decide), Option.isSome_map]

theorem candidateAt_tick (x w : List Char) : candidateAt (x ++ '\x60' :: w) = candidateAt x := by
  have hlower : Char.toLower '\x60' = '\x60' := by decide
  have hwords : ∀ o : Option (List Char),
      ((o.map (· ++ '\x60' :: w)).bind fun t =>
        expect Char.toLower questionWord (skip t) <|> expect Char.toLower questionsWord (skip t)) =
      (o.bind fun t =>
        expect Char.toLower questionWord (skip t) <|> expect Char.toLower questionsWord (skip t)).map
          (· ++ '\x60' :: w) := by
    rintro (_ | t)
    · rfl
    · rw [Option.map_some, Option.bind_some, Option.bind_some, skip_tick, expect_tick hlower (by decide),
        expect_tick hlower (by decide)]
      cases expect Char.toLower questionWord (skip t) <;> rfl
  unfold candidateAt
  rw [expect_tick rfl (by decide), hwords, bind_expect_tick rfl (by decide), Option.isSome_map]

end Ticks

/-! ## Opening lines in front of a fence -/

/-- A text up to the last backtick but one of a fence. -/
def upToTicks (u : List Char) : List Char := u ++ ['\x60', '\x60']

/-- An opening line that begins in front of a fence ends in front of it, whatever follows. -/
structure Blind (opener : List Char → Option (List Char × Nat)) : Prop where
  tick : ∀ u w, u ≠ [] → opener (upToTicks u ++ '\x60' :: w) = opener (upToTicks u)
  head : ∀ u o, opener (upToTicks u) = some o → o.2 ≤ u.length
  pos : ∀ t o, opener t = some o → 0 < o.2

theorem length_upToTicks (u : List Char) : (upToTicks u).length = u.length + 2 := List.length_append

theorem line_le {a s u : List Char} (h : upToTicks u = a ++ '\n' :: s) : a.length + 1 ≤ u.length := by
  by_contra hgt
  have hlen := congrArg List.length h
  rw [length_upToTicks, List.length_append, List.length_cons] at hlen
  have hget : (upToTicks u)[a.length]? = some '\n' := by
    rw [h, List.getElem?_append_right (Nat.le_refl _), Nat.sub_self]
    rfl
  rw [upToTicks, List.getElem?_append_right (by omega)] at hget
  have hmem : '\n' ∈ ['\x60', '\x60'] := List.mem_of_getElem? hget
  exact absurd hmem (by decide)

section Openers

variable {u w : List Char}

theorem fence_tick (hne : u ≠ []) (w : List Char) :
    fence <+: upToTicks u ++ '\x60' :: w ↔ fence <+: upToTicks u := by
  have hlen : fence.length ≤ (upToTicks u).length := by
    have hpos := List.length_pos_iff.2 hne
    rw [length_upToTicks]
    exact Nat.succ_le_succ (Nat.succ_le_succ hpos)
  exact ⟨fun h => List.prefix_of_prefix_length_le h (List.prefix_append _ _) hlen,
    fun h => h.trans (List.prefix_append _ _)⟩

theorem drop_tick (hne : u ≠ []) (w : List Char) :
    (upToTicks u ++ '\x60' :: w).drop 3 = (upToTicks u).drop 3 ++ '\x60' :: w := by
  have hpos := List.length_pos_iff.2 hne
  rw [List.drop_append_of_le_length]
  rw [length_upToTicks]
  omega

theorem blind_fileOpener : Blind fileOpener where
  tick u w hne := by
    have hle : (((upToTicks u).drop 3).takeWhile isLabelChar).length ≤ ((upToTicks u).drop 3).length :=
      (List.takeWhile_prefix isLabelChar).length_le
    unfold fileOpener
    rw [drop_tick hne, takeWhile_tick (by decide)]
    dsimp only
    rw [List.drop_append_of_le_length hle, lineEnd_tick]
    simp only [fence_tick hne]
  head u o ho := by
    obtain ⟨l, ⟨-, -, s, hs⟩, -, rfl⟩ := fileOpener_eq_some.1 ho
    have hle := line_le hs
    rw [List.length_append] at hle
    have hfence : fence.length = 3 := rfl
    dsimp only
    omega
  pos t o ho := (fileOpener_spec ho).2

variable {o : List Char × Nat}

theorem lineEnd_head {label a t : List Char} (h : lineEnd label t = some o)
    (ht : upToTicks u = a ++ t) (ha : a.length = 3 + label.length) : o.2 ≤ u.length := by
  obtain ⟨blanks, s, rfl, -, rfl⟩ := lineEnd_eq_some.1 h
  rw [← List.append_assoc] at ht
  have hle := line_le ht
  rw [List.length_append, ha] at hle
  exact hle

theorem take_drop_fence (h : fence <+: w) (n : Nat) : w = fence ++ ((w.drop 3).take n ++ (w.drop 3).drop n) := by
  rw [List.take_append_drop]
  exact eq_fence_append h

theorem length_of_expect {fold : Char → Char} {word t v : List Char} (h : expect fold word t = some v) :
    (t.take word.length).length = word.length := by
  have hlen := congrArg List.length (expect_eq_some h).1
  rwa [List.length_map] at hlen

theorem blind_askOpener : Blind askOpener where
  tick u w hne := by
    unfold askOpener
    rw [drop_tick hne, expect_tick (by decide) (by decide)]
    simp only [fence_tick hne]
    split
    · cases hword : expect Char.toLower "ask".toList ((upToTicks u).drop 3) with
      | none => rfl
      | some rest =>
        have hlen := length_of_expect hword
        rw [List.length_take] at hlen
        have hle : 3 ≤ ((upToTicks u).drop 3).length := by
          have hthree : "ask".toList.length = 3 := rfl
          omega
        rw [Option.map_some, Option.bind_some, Option.bind_some, List.take_append_of_le_length hle, lineEnd_tick]
    · rfl
  head u o ho := by
    unfold askOpener at ho
    split_ifs at ho with hfence
    obtain ⟨rest, hword, hend⟩ := Option.bind_eq_some_iff.1 ho
    have hlen := length_of_expect hword
    obtain ⟨-, rfl⟩ := expect_eq_some hword
    refine lineEnd_head (a := fence ++ ((upToTicks u).drop 3).take 3) hend ?_ ?_
    · rw [List.append_assoc]
      exact take_drop_fence hfence 3
    · rw [List.length_append]
      rfl
  pos t o ho := (askOpener_spec ho).2

/-- The opening lines of a block without `ask`, before it is looked at what follows. -/
def jsonLine (t : List Char) : Option (List Char × Nat) :=
  ((expect id "json".toList (t.drop 3)).bind (lineEnd "json".toList)) <|> lineEnd [] (t.drop 3)

theorem jsonOpener_eq (t : List Char) :
    jsonOpener t = if fence <+: t then (jsonLine t).filter fun o => startsQuestions id (t.drop o.2) else none := rfl

theorem jsonLine_tick (hne : u ≠ []) (w : List Char) :
    jsonLine (upToTicks u ++ '\x60' :: w) = jsonLine (upToTicks u) := by
  unfold jsonLine
  rw [drop_tick hne, expect_tick rfl (by decide), lineEnd_tick]
  congr 1
  cases expect id "json".toList ((upToTicks u).drop 3) with
  | none => rfl
  | some rest => rw [Option.map_some, Option.bind_some, Option.bind_some, lineEnd_tick]

theorem jsonLine_head (hfence : fence <+: upToTicks u) (h : jsonLine (upToTicks u) = some o) :
    o.2 ≤ u.length := by
  rcases (Option.orElse_eq_some _ _ _).1 h with h | ⟨-, h⟩
  · obtain ⟨rest, hword, hend⟩ := Option.bind_eq_some_iff.1 h
    have hlen := length_of_expect hword
    obtain ⟨-, rfl⟩ := expect_eq_some hword
    refine lineEnd_head (a := fence ++ ((upToTicks u).drop 3).take 4) hend ?_ ?_
    · rw [List.append_assoc]
      exact take_drop_fence hfence 4
    · rw [List.length_append]
      exact congrArg (3 + ·) hlen
  · exact lineEnd_head (a := fence) h (eq_fence_append hfence) rfl

theorem jsonLine_pos {t : List Char} (h : jsonLine t = some o) : 0 < o.2 := by
  have hend : ∀ {label t}, lineEnd label t = some o → 0 < o.2 := by
    intro label t h
    obtain ⟨blanks, s, -, -, rfl⟩ := lineEnd_eq_some.1 h
    exact Nat.succ_pos _
  rcases (Option.orElse_eq_some _ _ _).1 h with h | ⟨-, h⟩
  · obtain ⟨rest, -, h⟩ := Option.bind_eq_some_iff.1 h
    exact hend h
  · exact hend h

theorem drop_head_tick {n : Nat} (h : n ≤ u.length) (w : List Char) :
    (upToTicks u ++ '\x60' :: w).drop n = (upToTicks u).drop n ++ '\x60' :: w :=
  List.drop_append_of_le_length (by rw [length_upToTicks]; omega)

theorem blind_jsonOpener : Blind jsonOpener where
  tick u w hne := by
    rw [jsonOpener_eq, jsonOpener_eq, jsonLine_tick hne]
    by_cases hfence : fence <+: upToTicks u
    · rw [if_pos hfence, if_pos ((fence_tick hne w).2 hfence)]
      cases hline : jsonLine (upToTicks u) with
      | none => rfl
      | some o =>
        have hle := jsonLine_head hfence hline
        rw [Option.filter_some, Option.filter_some, drop_head_tick hle, startsQuestions_tick rfl]
    · rw [if_neg hfence, if_neg fun h => hfence ((fence_tick hne w).1 h)]
  head u o ho := by
    rw [jsonOpener_eq] at ho
    split_ifs at ho with hfence
    exact jsonLine_head hfence (Option.filter_eq_some_iff.1 ho).1
  pos t o ho := by
    rw [jsonOpener_eq] at ho
    split_ifs at ho
    exact jsonLine_pos (Option.filter_eq_some_iff.1 ho).1

/-- At most one backtick, at the head. -/
def tickOf (t : List Char) : List Char := (t.takeWhile (· = '\x60')).take 1

theorem tickOf_append (hne : u ≠ []) (w : List Char) : tickOf (u ++ w) = tickOf u := by
  obtain ⟨c, t, rfl⟩ := List.exists_cons_of_ne_nil hne
  unfold tickOf
  rw [List.cons_append, List.takeWhile_cons, List.takeWhile_cons]
  split <;> rfl

theorem length_tickOf (t : List Char) : (tickOf t).length ≤ 1 := List.length_take_le 1 _

/-- The line behind its blanks. -/
def askWord (t : List Char) : Option Nat :=
  (expect Char.toLower "ask".toList (t.drop (tickOf t).length)).bind fun rest =>
    (lineEnd [] (rest.drop (tickOf rest).length)).map fun o => (tickOf t).length + 3 + (tickOf rest).length + (o.2 - 3)

theorem askLine_eq (t : List Char) :
    askLine t = (askWord (t.drop (t.takeWhile isBlank).length)).map ((t.takeWhile isBlank).length + ·) := by
  unfold askLine askWord
  rw [Option.map_bind]
  refine congrArg (Option.bind _) (funext fun rest => ?_)
  rw [Function.comp_apply, Option.map_map]
  refine congrArg (Option.map · _) (funext fun o => ?_)
  dsimp only [Function.comp_apply, tickOf]
  omega

theorem drop_tickOf_append (hne : u ≠ []) (w : List Char) :
    (u ++ w).drop (tickOf (u ++ w)).length = u.drop (tickOf u).length ++ w := by
  have hlen := length_tickOf u
  have hpos := List.length_pos_iff.2 hne
  rw [tickOf_append hne, List.drop_append_of_le_length (by omega)]

theorem askWord_tick (u w : List Char) : askWord (upToTicks u ++ '\x60' :: w) = askWord (upToTicks u) := by
  have hne : upToTicks u ≠ [] := List.append_ne_nil_of_right_ne_nil u (List.cons_ne_nil _ _)
  have htick := tickOf_append hne ('\x60' :: w)
  unfold askWord
  rw [drop_tickOf_append hne, expect_tick (by decide) (by decide), htick]
  cases hword : expect Char.toLower "ask".toList ((upToTicks u).drop (tickOf (upToTicks u)).length) with
  | none => rfl
  | some rest =>
    -- one of the backticks is still to be read
    have hrest : rest ≠ [] := by
      rintro rfl
      obtain ⟨hfold, hnil⟩ := expect_eq_some hword
      have hsplit := List.take_append_drop "ask".toList.length ((upToTicks u).drop (tickOf (upToTicks u)).length)
      rw [← hnil, List.append_nil] at hsplit
      rw [hsplit] at hfold
      have hmem : '\x60' ∈ (upToTicks u).drop (tickOf (upToTicks u)).length := by
        have hsuffix : ['\x60'] <:+ upToTicks u := ⟨u ++ ['\x60'], by rw [List.append_assoc]; rfl⟩
        have hlen := length_tickOf (upToTicks u)
        refine List.IsSuffix.subset (List.suffix_of_suffix_length_le hsuffix (List.drop_suffix _ _) ?_)
          (List.mem_singleton_self _)
        rw [List.length_drop, length_upToTicks, List.length_singleton]
        omega
      have hfolded := List.mem_map_of_mem (f := Char.toLower) hmem
      rw [hfold] at hfolded
      exact absurd hfolded (by decide)
    rw [Option.map_some, Option.bind_some, Option.bind_some, drop_tickOf_append hrest, lineEnd_tick,
      tickOf_append hrest]

theorem askLine_tick (u w : List Char) : askLine (upToTicks u ++ '\x60' :: w) = askLine (upToTicks u) := by
  have hblanks : (upToTicks u).takeWhile isBlank = u.takeWhile isBlank := takeWhile_tick (by decide) u ['\x60']
  have hle : (u.takeWhile isBlank).length ≤ u.length := (List.takeWhile_prefix isBlank).length_le
  have hdrop : (upToTicks u).drop (u.takeWhile isBlank).length = upToTicks (u.drop (u.takeWhile isBlank).length) :=
    List.drop_append_of_le_length hle
  rw [askLine_eq, askLine_eq, takeWhile_tick (by decide), hblanks, drop_head_tick hle, hdrop, askWord_tick]

theorem askLine_line {t : List Char} {n : Nat} (h : askLine t = some n) :
    ∃ a s, t = a ++ '\n' :: s ∧ n = a.length + 1 := by
  rw [askLine_eq] at h
  obtain ⟨m, hm, rfl⟩ := Option.map_eq_some_iff.1 h
  obtain ⟨rest, hword, hend⟩ := Option.bind_eq_some_iff.1 hm
  obtain ⟨-, rfl⟩ := expect_eq_some hword
  obtain ⟨o, ho, rfl⟩ := Option.map_eq_some_iff.1 hend
  obtain ⟨blanks, s, hrest, -, rfl⟩ := lineEnd_eq_some.1 ho
  rw [List.drop_drop, List.drop_drop, List.drop_drop] at hrest
  generalize hk : (t.takeWhile isBlank).length + _ = k at hrest
  have hle : k ≤ t.length := by
    by_contra hgt
    rw [List.drop_of_length_le (by omega)] at hrest
    exact List.append_ne_nil_of_right_ne_nil blanks (List.cons_ne_nil '\n' s) hrest.symm
  refine ⟨t.take k ++ blanks, s, ?_, ?_⟩
  · rw [List.append_assoc, ← hrest, List.take_append_drop]
  · rw [List.length_append, List.length_take_of_le hle, ← hk]
    have hask : "ask".toList.length = 3 := rfl
    dsimp only [List.length_nil]
    omega

/-- Where the line ends, at the start of the text or of a line. -/
def bareLine (pos : Nat) (t : List Char) : Option Nat :=
  (if pos = 0 then askLine t else none) <|>
    (if t.head? = some '\n' then (askLine t.tail).map (· + 1) else none)

theorem bareOpener_eq (pos : Nat) (t : List Char) : bareOpener pos t = (bareLine pos t).bind fun head =>
      if startsQuestions Char.toLower (t.drop head) then some ([], head) else none := by
  unfold bareOpener bareLine
  congr 2
  cases t with
  | nil => rfl
  | cons c t =>
    by_cases hc : c = '\n'
    · subst hc
      rfl
    · simp [hc]

theorem bareLine_tick (pos : Nat) (u w : List Char) :
    bareLine pos (upToTicks u ++ '\x60' :: w) = bareLine pos (upToTicks u) := by
  unfold bareLine
  rw [askLine_tick]
  cases u with
  | nil => rfl
  | cons c u =>
    have htail : ((upToTicks (c :: u)) ++ '\x60' :: w).tail = upToTicks u ++ '\x60' :: w := rfl
    rw [htail, askLine_tick]
    rfl

theorem bareLine_line {pos : Nat} {t : List Char} {n : Nat} (h : bareLine pos t = some n) :
    ∃ a s, t = a ++ '\n' :: s ∧ n = a.length + 1 := by
  rcases (Option.orElse_eq_some _ _ _).1 h with h | ⟨-, h⟩
  · split_ifs at h
    exact askLine_line h
  · split_ifs at h with hhead
    obtain ⟨m, hm, rfl⟩ := Option.map_eq_some_iff.1 h
    obtain ⟨a, s, htail, rfl⟩ := askLine_line hm
    refine ⟨'\n' :: a, s, ?_, rfl⟩
    cases t with
    | nil => cases hhead
    | cons c t =>
      rw [Option.some.inj hhead, List.cons_append, ← htail]
      rfl

theorem blind_bareOpener (pos : Nat) : Blind (bareOpener pos) where
  tick u w _ := by
    rw [bareOpener_eq, bareOpener_eq, bareLine_tick]
    cases hline : bareLine pos (upToTicks u) with
    | none => rfl
    | some n =>
      obtain ⟨a, s, hs, rfl⟩ := bareLine_line hline
      rw [Option.bind_some, Option.bind_some, drop_head_tick (line_le hs), startsQuestions_tick (by decide)]
  head u o ho := by
    rw [bareOpener_eq] at ho
    obtain ⟨n, hline, hstarts⟩ := Option.bind_eq_some_iff.1 ho
    split_ifs at hstarts
    cases hstarts
    obtain ⟨a, s, hs, rfl⟩ := bareLine_line hline
    exact line_le hs
  pos t o ho := by
    rw [bareOpener_eq] at ho
    obtain ⟨n, hline, hstarts⟩ := Option.bind_eq_some_iff.1 ho
    split_ifs at hstarts
    cases hstarts
    obtain ⟨a, -, -, rfl⟩ := bareLine_line hline
    exact Nat.succ_pos _

end Openers

/-! ## Blocks in front of a fence -/

section Blocks

variable {opener : List Char → Option (List Char × Nat)} {u : List Char}

theorem append_fence (u v : List Char) : u ++ (fence ++ v) = upToTicks u ++ '\x60' :: v := by
  rw [upToTicks, List.append_assoc]
  rfl

theorem exists_cut_fence (u v : List Char) : ∃ body rest, Framing.cut fence (u ++ fence) = some (body, rest) ∧
      Framing.cut fence (u ++ (fence ++ v)) = some (body, rest ++ v) ∧ body.length ≤ u.length := by
  have hfence : fence <+: (u ++ fence).drop u.length := by
    rw [List.drop_left]
  cases hcut : Framing.cut fence (u ++ fence) with
  | none => exact absurd hfence (Framing.not_prefix_of_cut_none (List.cons_ne_nil _ _) hcut u.length)
  | some r =>
    refine ⟨r.1, r.2, rfl, ?_, ?_⟩
    · rw [← List.append_assoc]
      exact Framing.cut_append hcut v
    · by_contra hgt
      exact Framing.not_prefix_of_cut hcut (by omega) hfence

/-- A block that begins in front of a fence is closed there at the latest. -/
theorem Blind.blockAt_eq (hblind : Blind opener) (hne : u ≠ []) (v : List Char) :
    blockAt opener true (u ++ (fence ++ v)) = blockAt opener true (u ++ fence) ∧
      ∀ b, blockAt opener true (u ++ fence) = some b → b.closed = true ∧ b.head + b.body.length ≤ u.length := by
  have hnil : u ++ fence = upToTicks u ++ ['\x60'] := by
    rw [← append_fence u [], List.append_nil]
  have hwith := hblind.tick u v hne
  have hwithout := hblind.tick u [] hne
  rw [← append_fence] at hwith
  rw [← hnil] at hwithout
  cases ho : opener (upToTicks u) with
  | none =>
    rw [ho] at hwith hwithout
    have hnone : ∀ {t}, opener t = none → blockAt opener true t = none := by
      intro t h
      rw [blockAt, h]
      rfl
    refine ⟨(hnone hwith).trans (hnone hwithout).symm, fun b hb => ?_⟩
    rw [hnone hwithout] at hb
    cases hb
  | some o =>
    have hle := hblind.head u o ho
    rw [ho] at hwith hwithout
    obtain ⟨body, rest, hcut, hcut', hlen⟩ := exists_cut_fence (u.drop o.2) v
    rw [List.length_drop] at hlen
    have hblock : ∀ {t body rest}, opener t = some o → Framing.cut fence (t.drop o.2) = some (body, rest) →
        blockAt opener true t = some ⟨o.1, o.2, body, true⟩ := by
      intro t body rest hopen hc
      rw [blockAt, hopen, Option.bind_some, hc]
    rw [← List.drop_append_of_le_length hle] at hcut hcut'
    refine ⟨(hblock hwith hcut').trans (hblock hwithout hcut).symm, fun b hb => ?_⟩
    rw [hblock hwithout hcut] at hb
    cases hb
    exact ⟨rfl, by dsimp only; omega⟩

theorem Blind.moves {m : Nat → List Char → Option (List Char × Nat)} (hblind : ∀ pos, Blind (m pos)) :
    Scan.Moves (fun pos => blockAt (m pos) true) Block.length := by
  intro pos t b hb
  have hpos := (hblind pos).pos t _ (blockAt_eq_some.1 hb).1
  dsimp only at hpos
  unfold Block.length
  omega

end Blocks

/-! ## The objects that are read -/

/-- An object that `parseAsk` reads: where it ends, and its text. -/
structure Obj where
  stop : Nat
  text : List Char

/-- A place that is taken for a part of a file. -/
def covered (files : List (Nat × Nat)) (start stop : Nat) : Bool :=
  files.any fun d => decide (d.1 ≤ start ∧ stop ≤ d.2)

/-- The candidates of a text that stand in no file. -/
def objectsIn (files : List (Nat × Nat)) (body : List Char) (offset origin : Nat) : List Obj :=
  ((questionCandidates body).filter fun c => !covered files (offset + c.1) (offset + c.2)).map fun c =>
    ⟨origin + c.2, (body.take c.2).drop c.1⟩

def objectsOf (files : List (Nat × Nat)) (m : Nat × Block) : List Obj :=
  objectsIn files m.2.body (m.1 + (m.2.length - m.2.body.length)) (m.1 + m.2.head)

/-- The objects of a message, in the order in which they are read. -/
def objects (L : Lowercase) (content : List Char) : List Obj :=
  (blocks askOpener true content ++ blocks jsonOpener true content ++ bareBlocks content).flatMap
      (objectsOf (fileBounds L content)) ++ objectsIn (fileBounds L content) content 0 0

section Read

variable (L : Lowercase) (f : List Char → List AskQ)

theorem questions_collected_objects (files : List (Nat × Nat)) (body : List Char) (offset origin : Nat)
    (r : Collected) : (collected L f files body offset origin r).questions =
      ((objectsIn files body offset origin).flatMap fun o => f o.text).foldl (keep L) r.questions := by
  unfold collected objectsIn
  induction questionCandidates body generalizing r with
  | nil => rfl
  | cons c cs ih =>
    rw [List.foldl_cons, ih, List.filter_cons]
    unfold collectOne
    by_cases hcovered : covered files (offset + c.1) (offset + c.2) = true
    · rw [hcovered]
      rw [covered] at hcovered
      rw [if_pos hcovered]
      rfl
    · rw [Bool.not_eq_true] at hcovered
      rw [hcovered]
      rw [covered] at hcovered
      rw [hcovered, Bool.not_false, if_pos rfl, List.map_cons, List.flatMap_cons, List.foldl_append,
        if_neg Bool.false_ne_true, questions_foldl_push]
      rfl

theorem questions_foldl_objects (files : List (Nat × Nat)) (ms : List (Nat × Block)) (r : Collected) :
    (ms.foldl (collectBlock L f files) r).questions =
      ((ms.flatMap (objectsOf files)).flatMap fun o => f o.text).foldl (keep L) r.questions := by
  induction ms generalizing r with
  | nil => rfl
  | cons m ms ih =>
    rw [List.foldl_cons, ih, List.flatMap_cons, List.flatMap_append, List.foldl_append, collectBlock,
      questions_collected_objects]
    rfl

theorem questions_objects (content : List Char) : (collectAll L f content).questions =
    ((objects L content).flatMap fun o => f o.text).foldl (keep L) [] := by
  rw [collectAll_eq, questions_collected_objects, questions_foldl_objects, questions_foldl_objects,
    questions_foldl_objects]
  unfold objects
  simp only [List.flatMap_append, List.foldl_append]
  rfl

end Read

/-! ## Objects in front of a fence -/

section Front

variable {L : Lowercase} {u : List Char} {n : Nat}

theorem covered_congr {files files' : List (Nat × Nat)} {start stop : Nat}
    (h : (files.filter fun d => decide (d.1 < n)) = files'.filter fun d => decide (d.1 < n)) (hlt : start < n) :
    covered files start stop = covered files' start stop := by
  have hfilter : ∀ files : List (Nat × Nat),
      covered files start stop = covered (files.filter fun d => decide (d.1 < n)) start stop := by
    intro files
    unfold covered
    rw [List.any_filter]
    refine List.any_congr rfl fun d => ?_
    by_cases hd : d.1 < n
    · rw [decide_eq_true hd, Bool.true_and]
    · rw [decide_eq_false hd, Bool.false_and, decide_eq_false fun h => hd (h.1.trans_lt hlt)]
  rw [hfilter files, h, ← hfilter files']

theorem lt_objectEnd {depth : Int} {inString escaped : Bool} {i e : Nat} {t : List Char}
    (h : objectEnd depth inString escaped i t = some e) : i < e := by
  induction t generalizing depth inString escaped i with
  | nil => cases inString <;> cases h
  | cons ch t ih =>
    cases inString <;> rw [objectEnd] at h <;> split_ifs at h <;> first
      | exact (Nat.lt_succ_self i).trans (ih h)
      | (cases h; exact Nat.lt_succ_self i)

theorem objectEnd_append (depth : Int) (inString escaped : Bool) (i : Nat) (x y : List Char) :
    objectEnd depth inString escaped i (x ++ y) = objectEnd depth inString escaped i x ∨
      (objectEnd depth inString escaped i x = none ∧
        ∀ e, objectEnd depth inString escaped i (x ++ y) = some e → i + x.length < e) := by
  induction x generalizing depth inString escaped i with
  | nil =>
    refine .inr ⟨by cases inString <;> rfl, fun e he => ?_⟩
    exact lt_objectEnd he
  | cons ch x ih =>
    have hlen : i + (ch :: x).length = i + 1 + x.length := by
      rw [List.length_cons]
      omega
    rw [List.cons_append, hlen]
    cases inString <;> rw [objectEnd, objectEnd] <;> split_ifs <;> first
      | exact ih _ _ _ _
      | exact .inl rfl

theorem length_of_candidateAt {t : List Char} (h : candidateAt t = true) : 4 ≤ t.length := by
  obtain ⟨w, hw⟩ := Option.isSome_iff_exists.1 h
  obtain ⟨v, hv, -⟩ := Option.bind_eq_some_iff.1 hw
  obtain ⟨z, hz, hword⟩ := Option.bind_eq_some_iff.1 hv
  obtain ⟨-, rfl⟩ := expect_eq_some hz
  have hlong : 4 ≤ (skip (t.drop ['\x7b'].length)).length := by
    rcases (Option.orElse_eq_some _ _ _).1 hword with hword | ⟨-, hword⟩
    · have hlen := length_of_expect hword
      rw [List.length_take] at hlen
      have hten : questionWord.length = 10 := rfl
      omega
    · have hlen := length_of_expect hword
      rw [List.length_take] at hlen
      have heleven : questionsWord.length = 11 := rfl
      omega
  have hle := (List.dropWhile_suffix isJsSpace (l := t.drop ['\x7b'].length)).length_le
  rw [List.length_drop] at hle
  exact hlong.trans (hle.trans (Nat.sub_le _ _))

theorem candidate_of_mem {body : List Char} {c : Nat × Nat} (h : c ∈ questionCandidates body) :
    c.1 < c.2 ∧ c.1 + 3 < body.length ∧ c.2 ≤ body.length := by
  obtain ⟨hlt, hle⟩ := questionCandidates_le h
  obtain ⟨i, -, hi⟩ := List.mem_filterMap.1 h
  split_ifs at hi with hat
  cases hi
  have hlen := length_of_candidateAt hat
  rw [List.length_drop] at hlen
  refine ⟨?_, by dsimp only; omega, hle⟩
  cases he : objectEnd 0 false false i (body.drop i) with
  | none => exact hlt
  | some e => exact lt_objectEnd he

theorem drop_append_fence {i : Nat} (hi : i ≤ u.length) (v : List Char) :
    (u ++ (fence ++ v)).drop i = u.drop i ++ (fence ++ v) := List.drop_append_of_le_length hi

/-- The candidates that end in front of a fence. -/
def frontCandidates (u : List Char) : List (Nat × Nat) :=
  (List.range u.length).filterMap fun i =>
    if candidateAt (upToTicks (u.drop i)) then (objectEnd 0 false false i (u.drop i)).map fun e => (i, e) else none

theorem frontCandidates_eq (u v : List Char) :
    ((questionCandidates (u ++ (fence ++ v))).filter fun c => decide (c.2 ≤ u.length)) = frontCandidates u := by
  have hlen : (u ++ (fence ++ v)).length = u.length + (fence ++ v).length := List.length_append
  have hpos : 0 < (fence ++ v).length := Nat.succ_pos _
  have hrange : List.range (u ++ (fence ++ v)).length =
      List.range u.length ++ (List.range (fence ++ v).length).map (u.length + ·) := by
    rw [hlen, List.range_add]
  have hbehind : ((List.range (fence ++ v).length).map (u.length + ·)).filterMap (fun i => Option.filter
      (fun c : Nat × Nat => decide (c.2 ≤ u.length)) (if candidateAt ((u ++ (fence ++ v)).drop i) then
        some (i, (objectEnd 0 false false i ((u ++ (fence ++ v)).drop i)).getD (u ++ (fence ++ v)).length)
      else none)) = [] := by
    refine List.filterMap_eq_nil_iff.2 fun i hi => ?_
    obtain ⟨k, -, rfl⟩ := List.mem_map.1 hi
    split
    · rw [Option.filter_some, if_neg]
      rw [decide_eq_true_eq]
      cases he : objectEnd 0 false false (u.length + k) ((u ++ (fence ++ v)).drop (u.length + k)) with
      | none =>
        rw [Option.getD_none]
        omega
      | some e =>
        have hlt := lt_objectEnd he
        rw [Option.getD_some]
        omega
    · rfl
  unfold questionCandidates frontCandidates
  rw [List.filter_filterMap, hrange, List.filterMap_append, hbehind, List.append_nil]
  refine List.filterMap_congr fun i hi => ?_
  have hi : i < u.length := List.mem_range.1 hi
  rw [drop_append_fence hi.le, append_fence, candidateAt_tick, ← append_fence]
  split
  · rw [Option.filter_some]
    have hroom : i + (u.drop i).length = u.length := by
      rw [List.length_drop]
      omega
    rcases objectEnd_append 0 false false i (u.drop i) (fence ++ v) with heq | ⟨hnone, hend⟩
    · rw [heq]
      cases he : objectEnd 0 false false i (u.drop i) with
      | none =>
        rw [Option.getD_none, if_neg, Option.map_none]
        rw [decide_eq_true_eq]
        omega
      | some e =>
        have hle := objectEnd_le he
        rw [Option.getD_some, if_pos (decide_eq_true (by omega)), Option.map_some]
    · rw [hnone, Option.map_none, if_neg]
      rw [decide_eq_true_eq]
      cases he : objectEnd 0 false false i (u.drop i ++ (fence ++ v)) with
      | none =>
        rw [Option.getD_none]
        omega
      | some e =>
        have hlt := hend e he
        rw [Option.getD_some]
        omega
  · rfl

variable {m : Nat → List Char → Option (List Char × Nat)}

/-- What counts of an expression that starts with an opening line. -/
theorem blocks_front (hblind : ∀ pos, Blind (m pos)) (u v : List Char) :
    (Scan.scan (fun pos => blockAt (m pos) true) Block.length 0 (u ++ (fence ++ v))).filter
        (fun x => decide (x.1 < u.length)) =
      (Scan.scan (fun pos => blockAt (m pos) true) Block.length 0 (u ++ fence)).filter
        (fun x => decide (x.1 < u.length)) := by
  refine Scan.scan_filter_eq (Blind.moves hblind) fun i hi => ?_
  have hne : u.drop i ≠ [] := fun h => absurd (List.drop_eq_nil_iff.1 h) (by omega)
  exact ((hblind i).blockAt_eq hne v).1

theorem block_front (hblind : ∀ pos, Blind (m pos))
    {v : List Char} {x : Nat × Block} (hx : x ∈ Scan.scan (fun pos => blockAt (m pos) true) Block.length 0
      (u ++ (fence ++ v))) (hlt : x.1 < u.length) :
    x.2.closed = true ∧ x.1 + x.2.head + x.2.body.length ≤ u.length := by
  obtain ⟨-, -, hblock⟩ := Scan.mem_scan (p := x.1) (b := x.2) hx
  have hne : u.drop x.1 ≠ [] := fun h => absurd (List.drop_eq_nil_iff.1 h) (by omega)
  obtain ⟨heq, hspec⟩ := (hblind x.1).blockAt_eq hne v
  rw [Nat.sub_zero, drop_append_fence hlt.le, heq] at hblock
  obtain ⟨hclosed, hle⟩ := hspec x.2 hblock
  rw [List.length_drop] at hle
  exact ⟨hclosed, by omega⟩

theorem fileBounds_front (L : Lowercase) (u v : List Char) :
    ((fileBounds L (u ++ (fence ++ v))).filter fun d => decide (d.1 < u.length)) =
      (fileBounds L (u ++ fence)).filter fun d => decide (d.1 < u.length) := by
  have hblocks := blocks_front (fun _ => blind_fileOpener) u v
  unfold fileBounds blocks
  rw [List.filter_map, List.filter_map]
  refine congrArg (List.map _) ?_
  have hcomm : ∀ l : List (Nat × Block),
      (l.filter fun m => isFile L m.2).filter
          ((fun d : Nat × Nat => decide (d.1 < u.length)) ∘ fun m : Nat × Block => (m.1, m.1 + m.2.length)) =
        (l.filter fun x => decide (x.1 < u.length)).filter fun m => isFile L m.2 := by
    intro l
    rw [List.filter_filter, List.filter_filter]
    exact List.filter_congr fun m _ => Bool.and_comm _ _
  rw [hcomm, hcomm, hblocks]

/-- Ends in front of the fence at `n`. -/
def Obj.inFront (n : Nat) (o : Obj) : Bool := decide (o.stop ≤ n)

theorem filter_flatMap_eq {α β : Type*} {g g' : α → List β} {P : β → Bool} {q : α → Bool} {l : List α}
    (hkept : ∀ x ∈ l, q x = true → (g x).filter P = g' x)
    (hdropped : ∀ x ∈ l, q x = false → (g x).filter P = []) :
    (l.flatMap g).filter P = (l.filter q).flatMap g' := by
  induction l with
  | nil => rfl
  | cons x l ih =>
    rw [List.forall_mem_cons] at hkept hdropped
    rw [List.flatMap_cons, List.filter_append, ih hkept.2 hdropped.2, List.filter_cons]
    cases hq : q x with
    | true => rw [hkept.1 hq, if_pos rfl, List.flatMap_cons]
    | false => rw [hdropped.1 hq, List.nil_append, if_neg Bool.false_ne_true]

/-- The objects of the blocks, as far as they end in front of a fence. -/
theorem objectsOf_front (hblind : ∀ pos, Blind (m pos)) (L : Lowercase) (u v : List Char) :
    ((Scan.scan (fun pos => blockAt (m pos) true) Block.length 0 (u ++ (fence ++ v))).flatMap
        (objectsOf (fileBounds L (u ++ (fence ++ v))))).filter (Obj.inFront u.length) =
      ((Scan.scan (fun pos => blockAt (m pos) true) Block.length 0 (u ++ fence)).filter
        (fun x => decide (x.1 < u.length))).flatMap (objectsOf (fileBounds L (u ++ fence))) := by
  rw [← blocks_front hblind u v]
  refine filter_flatMap_eq (fun x hx hlt => ?_) fun x _ hge => ?_
  · obtain ⟨hclosed, hle⟩ := block_front hblind hx (of_decide_eq_true hlt)
    have hlen : x.2.length = x.2.head + x.2.body.length + 3 := by
      unfold Block.length
      rw [if_pos hclosed]
    unfold objectsOf objectsIn
    rw [List.filter_eq_self.2]
    · refine congrArg (List.map _) (List.filter_congr fun c hc => ?_)
      obtain ⟨-, hroom, -⟩ := candidate_of_mem hc
      rw [covered_congr (fileBounds_front L u v) (by omega)]
    · intro o ho
      obtain ⟨c, hc, rfl⟩ := List.mem_map.1 ho
      obtain ⟨-, -, hstop⟩ := candidate_of_mem (List.mem_filter.1 hc).1
      refine decide_eq_true ?_
      dsimp only
      omega
  · have hge := of_decide_eq_false hge
    refine List.filter_eq_nil_iff.2 fun o ho => ?_
    obtain ⟨c, hc, rfl⟩ := List.mem_map.1 ho
    obtain ⟨hstop, -, -⟩ := candidate_of_mem (List.mem_filter.1 hc).1
    rw [Obj.inFront, decide_eq_true_eq]
    dsimp only
    omega

theorem take_drop_front {c : Nat × Nat} (h : c.2 ≤ u.length) (v : List Char) :
    ((u ++ (fence ++ v)).take c.2).drop c.1 = ((u ++ fence).take c.2).drop c.1 := by
  rw [List.take_append_of_le_length h, List.take_append_of_le_length h]

/-- The objects set in the text, as far as they end in front of a fence. -/
theorem objectsIn_front (L : Lowercase) (u v : List Char) :
    (objectsIn (fileBounds L (u ++ (fence ++ v))) (u ++ (fence ++ v)) 0 0).filter (Obj.inFront u.length) =
      ((frontCandidates u).filter fun c => !covered (fileBounds L (u ++ fence)) (0 + c.1) (0 + c.2)).map
        fun c => ⟨0 + c.2, ((u ++ fence).take c.2).drop c.1⟩ := by
  have hcomm : ∀ (q : Nat × Nat → Bool) (l : List (Nat × Nat)) (t : List Char),
      (l.filter q).filter (Obj.inFront u.length ∘ fun c => ⟨0 + c.2, (t.take c.2).drop c.1⟩) =
        (l.filter fun c => decide (c.2 ≤ u.length)).filter q := by
    intro q l t
    rw [List.filter_filter, List.filter_filter]
    refine List.filter_congr fun c _ => ?_
    rw [Function.comp_apply, Obj.inFront, Nat.zero_add, Bool.and_comm]
  unfold objectsIn
  rw [List.filter_map, hcomm, frontCandidates_eq]
  have hfront : ∀ c ∈ frontCandidates u, c.1 < u.length ∧ c.2 ≤ u.length := by
    intro c hc
    rw [← frontCandidates_eq u v] at hc
    obtain ⟨hmem, hle⟩ := List.mem_filter.1 hc
    have hlt := (candidate_of_mem hmem).1
    have hle := of_decide_eq_true hle
    exact ⟨by omega, hle⟩
  have hfilter : ((frontCandidates u).filter fun c =>
        !covered (fileBounds L (u ++ (fence ++ v))) (0 + c.1) (0 + c.2)) =
      (frontCandidates u).filter fun c => !covered (fileBounds L (u ++ fence)) (0 + c.1) (0 + c.2) := by
    refine List.filter_congr fun c hc => ?_
    rw [covered_congr (fileBounds_front L u v)]
    rw [Nat.zero_add]
    exact (hfront c hc).1
  rw [hfilter]
  refine List.map_congr_left fun c hc => ?_
  rw [take_drop_front (hfront c (List.mem_filter.1 hc).1).2]

/-- Whatever follows a fence: the objects that end in front of it are the same. -/
theorem front_eq (L : Lowercase) (u v : List Char) :
    (objects L (u ++ (fence ++ v))).filter (Obj.inFront u.length) =
      (objects L (u ++ fence)).filter (Obj.inFront u.length) := by
  have hall : ∀ v, (objects L (u ++ (fence ++ v))).filter (Obj.inFront u.length) =
      (((blocks askOpener true (u ++ fence)).filter fun x => decide (x.1 < u.length)) ++
        ((blocks jsonOpener true (u ++ fence)).filter fun x => decide (x.1 < u.length)) ++
        (bareBlocks (u ++ fence)).filter fun x => decide (x.1 < u.length)).flatMap
          (objectsOf (fileBounds L (u ++ fence))) ++
      ((frontCandidates u).filter fun c => !covered (fileBounds L (u ++ fence)) (0 + c.1) (0 + c.2)).map
        fun c => ⟨0 + c.2, ((u ++ fence).take c.2).drop c.1⟩ := by
    intro v
    have hask := objectsOf_front (fun _ => blind_askOpener) L u v
    have hjson := objectsOf_front (fun _ => blind_jsonOpener) L u v
    have hbare := objectsOf_front blind_bareOpener L u v
    unfold objects
    rw [List.filter_append, objectsIn_front, List.flatMap_append, List.flatMap_append, List.filter_append,
      List.filter_append, List.flatMap_append, List.flatMap_append]
    exact congrArg (· ++ _) (congrArg₂ _ (congrArg₂ _ hask hjson) hbare)
  rw [hall v, ← hall [], List.append_nil]

end Front

/-! ## The message that is stored -/

/-- `indexOf`, from a position on. -/
def indexOf (word t : List Char) (pos : Nat) : Option Nat :=
  (Framing.cut word (t.drop pos)).map fun r => pos + r.1.length

/-- Where the fence begins behind which `trimAfterAsk` cuts. -/
def closeOf (content : List Char) : Option Nat :=
  (indexOf (fence ++ "ask".toList) content 0).bind fun i => indexOf fence content (i + 6)

def trimAfterAsk (content : List Char) : List Char :=
  match closeOf content with
  | none => content
  | some close => content.take (close + 3)

/-- The questions that `parseAsk` returns, none of them if it returns `null`, unless it throws. -/
def asks (L : Lowercase) (content : List Char) : Option (List AskQ) :=
  if ∀ o ∈ objects L content, questionsOf o.text ≠ none then some (questionsIn L content) else none

/-- The objects that are read carry no question where they end behind the cut: neither in the whole
message nor where they are cut themselves. -/
def Spared (L : Lowercase) (content : List Char) : Prop :=
  ∀ close, closeOf content = some close →
    ∀ o ∈ objects L content ++ objects L (trimAfterAsk content), close < o.stop → questionsOf o.text = some []

section Stored

variable {L : Lowercase} {content : List Char}

theorem parts_of_closeOf {close : Nat} (h : closeOf content = some close) :
    ∃ u v, content = u ++ (fence ++ v) ∧ trimAfterAsk content = u ++ fence ∧ u.length = close := by
  obtain ⟨i, -, hclose⟩ := Option.bind_eq_some_iff.1 h
  obtain ⟨⟨body, v⟩, hcut, hlen⟩ := Option.map_eq_some_iff.1 hclose
  have hparts := Framing.eq_of_cut hcut
  have hle : i + 6 ≤ content.length := by
    by_contra hgt
    rw [List.drop_of_length_le (by omega)] at hparts
    exact List.append_ne_nil_of_left_ne_nil (List.append_ne_nil_of_right_ne_nil body (List.cons_ne_nil _ _)) v
      hparts.symm
  have hcontent : content = (content.take (i + 6) ++ body) ++ (fence ++ v) := by
    have hsplit := List.take_append_drop (i + 6) content
    rw [hparts] at hsplit
    rw [List.append_assoc, ← List.append_assoc body]
    exact hsplit.symm
  have hwidth : (content.take (i + 6) ++ body).length = close := by
    rw [List.length_append, List.length_take_of_le hle, ← hlen]
  refine ⟨content.take (i + 6) ++ body, v, hcontent, ?_, hwidth⟩
  have htrim : trimAfterAsk content = content.take (close + 3) := by
    unfold trimAfterAsk
    rw [h]
  have hfence : (content.take (i + 6) ++ body ++ fence).length = close + 3 := by
    rw [List.length_append, hwidth]
    rfl
  generalize content.take (i + 6) ++ body = u at hcontent hfence
  rw [htrim, hcontent, ← List.append_assoc, List.take_left' hfence]

theorem asks_eq (L : Lowercase) {p : Obj → Bool}
    (h : ∀ o ∈ objects L content, p o = false → questionsOf o.text = some []) :
    asks L content = if ∀ o ∈ (objects L content).filter p, questionsOf o.text ≠ none then
      some ((((objects L content).filter p).flatMap fun o => readOf o.text).foldl (keep L) []) else none := by
  have hthrows : (∀ o ∈ objects L content, questionsOf o.text ≠ none) ↔
      ∀ o ∈ (objects L content).filter p, questionsOf o.text ≠ none := by
    constructor
    · intro hall o ho
      exact hall o (List.mem_filter.1 ho).1
    · intro hall o ho
      cases hp : p o with
      | true => exact hall o (List.mem_filter.2 ⟨ho, hp⟩)
      | false =>
        rw [h o ho hp]
        exact Option.some_ne_none _
  have hread : ∀ l : List Obj, (∀ o ∈ l, p o = false → questionsOf o.text = some []) →
      (l.flatMap fun o => readOf o.text) = (l.filter p).flatMap fun o => readOf o.text := by
    intro l hl
    induction l with
    | nil => rfl
    | cons o l ih =>
      rw [List.forall_mem_cons] at hl
      rw [List.flatMap_cons, ih hl.2, List.filter_cons]
      cases hp : p o with
      | true => rw [if_pos rfl, List.flatMap_cons]
      | false =>
        have hnone : readOf o.text = [] := by rw [readOf, hl.1 hp, Option.getD_some]
        rw [hnone, List.nil_append, if_neg Bool.false_ne_true]
  unfold asks
  simp only [hthrows]
  rw [questionsIn_eq, questions_objects, hread _ h]

theorem asks_of_spared (h : Spared L content) : asks L (trimAfterAsk content) = asks L content := by
  cases hclose : closeOf content with
  | none =>
    unfold trimAfterAsk
    rw [hclose]
  | some close =>
    have hspared := h close hclose
    obtain ⟨u, v, hcontent, htrim, rfl⟩ := parts_of_closeOf hclose
    have hbehind : ∀ o : Obj, Obj.inFront u.length o = false → u.length < o.stop := by
      intro o ho
      exact Nat.lt_of_not_le (of_decide_eq_false ho)
    rw [asks_eq L fun o ho hp => hspared o (List.mem_append_right _ ho) (hbehind o hp),
      asks_eq L fun o ho hp => hspared o (List.mem_append_left _ ho) (hbehind o hp), htrim]
    have hfront := front_eq L u v
    rw [← hcontent] at hfront
    rw [hfront]

/-- What an object asks is returned, or a question with the same text, or the list is full. -/
theorem done_of_asks {qs : List AskQ} (h : asks L content = some qs) {o : Obj} (ho : o ∈ objects L content)
    {q : AskQ} (hq : q ∈ readOf o.text) :
    (∃ q' ∈ qs, L.lower q'.question = L.lower q.question) ∨ maxAskQuestions ≤ qs.length := by
  unfold asks at h
  split_ifs at h
  rw [← Option.some.inj h, questionsIn_eq, questions_objects]
  exact Collect.done_foldl (List.mem_flatMap.2 ⟨o, ho, hq⟩) []

/-- For every message: what is asked is kept if no object that carries a question ends behind the
cut. If it is kept, the objects behind the cut ask nothing that is not asked anyway, unless the
questionnaire is full. -/
theorem trim_keeps_questions (L : Lowercase) (content : List Char) :
    (Spared L content → asks L (trimAfterAsk content) = asks L content) ∧
      ∀ qs, asks L content = some qs → asks L (trimAfterAsk content) = some qs →
        ∀ o ∈ objects L content ++ objects L (trimAfterAsk content), ∀ q ∈ readOf o.text,
          (∃ q' ∈ qs, L.lower q'.question = L.lower q.question) ∨ maxAskQuestions ≤ qs.length := by
  refine ⟨asks_of_spared, fun qs hqs hqs' o ho q hq => ?_⟩
  rcases List.mem_append.1 ho with ho | ho
  · exact done_of_asks hqs ho hq
  · exact done_of_asks hqs' ho hq

/-- The block is empty, and the question is set in the text behind it. -/
theorem not_trim_keeps_questions_scattered :
    let content := "\x60\x60\x60ask\n\x7b\"questions\": []\x7d\n\x60\x60\x60\n".toList ++
      "\x7b\"question\":\"Q\",\"options\":[\"a\"]\x7d".toList
    asks asciiLowercase content = some [⟨"Q".toList, ["a".toList]⟩] ∧
      asks asciiLowercase (trimAfterAsk content) = some [] := by
  decide +kernel

end Stored

end Portal.Ask
