import DgxPlatform.Lib.Trim
import DgxPlatform.Portal.AskFences

/-! # A fenced block is a file or a questionnaire

`parseArtifacts` and `fileBounds` cut an answer into fenced blocks with two
regular expressions: the one takes any opening line, the other only a label of
letters, digits and `+`, `-`, `_`. Where a block has another label, the second
takes its closing fence for an opening one, and goes on out of step.

* `outside_of_mem`: no question was read inside the bounds of a file.
-/

namespace Portal.Ask

open Text

/-! ## Where `fileBounds` opens a block -/

/-- Read from `q` on, a file would end with the fence at `p`. -/
def Leads (t : List Char) (q p : Nat) : Prop :=
  ∃ b, blockAt fileOpener true (t.drop q) = some b ∧ q < p ∧ p < q + b.length

/-- `n` opening lines stand in a row before `p`: each leads to the next one, the last to `p`. -/
inductive InRow (t : List Char) : Nat → Nat → Prop
  | first {p : Nat} : (∀ q, ¬ Leads t q p) → InRow t 0 p
  | next {q p n : Nat} : Leads t q p → InRow t n q → InRow t (n + 1) p

variable {t : List Char}

theorem fileOpener_head {b : Block} (h : blockAt fileOpener true t = some b) :
    ∃ w, Opens t w ∧ plain w = true ∧ b.label = w.takeWhile isLabelChar ∧
      b.head = w.length + 4 := by
  obtain ⟨w, hw, hplain, ho⟩ := fileOpener_eq_some.1 (blockAt_eq_some.1 h).1
  exact ⟨w, hw, hplain, (Prod.mk.inj ho).1, (Prod.mk.inj ho).2⟩

theorem Opens.fenceAt {t w : List Char} {p : Nat} (h : Opens (t.drop p) w) : FenceAt t p := by
  obtain ⟨-, -, s, hs⟩ := h
  rw [FenceAt, hs, List.append_assoc]
  exact List.prefix_append _ _

theorem length_le_of_file (b : Block) : b.length ≤ b.head + b.body.length + 3 := by
  unfold Block.length
  split <;> omega

theorem Leads.fenceAt {q p : Nat} (h : Leads t q p) : FenceAt t q := by
  obtain ⟨b, hb, -, -⟩ := h
  obtain ⟨w, hw, -⟩ := fileOpener_head hb
  exact hw.fenceAt

theorem Leads.not_lt {q q' p : Nat} (hp : FenceAt t p) (h : Leads t q p) (h' : Leads t q' p) : ¬ q < q' := by
  intro hlt
  have hq' := h'.fenceAt
  obtain ⟨b, hb, -, hpb⟩ := h
  obtain ⟨b', hb', hq'p, -⟩ := h'
  obtain ⟨w, -, -, -, hhead⟩ := fileOpener_head hb'
  -- the second opening line begins with the fence that closes the first block
  have hend := fence_behind hb hq' hlt
  have hend' := fence_behind hb' hp hq'p
  have hle := length_le_of_file b
  omega

theorem Leads.unique {q q' p : Nat} (hp : FenceAt t p) (h : Leads t q p) (h' : Leads t q' p) : q = q' :=
  Nat.le_antisymm (Nat.le_of_not_lt (h'.not_lt hp h)) (Nat.le_of_not_lt (h.not_lt hp h'))

theorem InRow.unique {n k p : Nat} (hp : FenceAt t p) (h : InRow t n p) (h' : InRow t k p) : n = k := by
  induction h generalizing k with
  | first hnone =>
    cases h' with
    | first => rfl
    | next hlead => exact absurd hlead (hnone _)
  | next hlead _ ih =>
    cases h' with
    | first hnone => exact absurd hlead (hnone _)
    | next hlead' hrow' =>
      have heq := hlead.unique hp hlead'
      subst heq
      rw [ih hlead.fenceAt hrow']

theorem exists_inRow (t : List Char) (p : Nat) : ∃ n, InRow t n p := by
  induction p using Nat.strong_induction_on with
  | _ p ih =>
    by_cases hlead : ∃ q, Leads t q p
    · obtain ⟨q, hq⟩ := hlead
      obtain ⟨b, -, hqp, -⟩ := id hq
      obtain ⟨n, hn⟩ := ih q hqp
      exact ⟨n + 1, InRow.next hq hn⟩
    · exact ⟨0, InRow.first (not_exists.1 hlead)⟩

theorem moves_file : Scan.Moves (fun _ : Nat => blockAt fileOpener true) Block.length := by
  intro pos t b hb
  obtain ⟨w, -, -, -, hhead⟩ := fileOpener_head hb
  unfold Block.length
  omega

theorem mem_blocks {opener : List Char → Option (List Char × Nat)} {toEnd : Bool}
    {p : Nat} {b : Block} (h : (p, b) ∈ blocks opener toEnd t) :
    p < t.length ∧ blockAt opener toEnd (t.drop p) = some b := by
  obtain ⟨-, hlt, hb⟩ := Scan.mem_scan h
  exact ⟨by omega, hb⟩

/-- `fileBounds` opens a block exactly where an even number of opening lines precede it in a
row: the first one of a row is opened, the second one closes it, and so on. -/
theorem opened_iff {p : Nat} {b : Block} (h : blockAt fileOpener true (t.drop p) = some b) :
    (p, b) ∈ blocks fileOpener true t ↔ ∃ n, InRow t n p ∧ n % 2 = 0 := by
  induction p using Nat.strong_induction_on generalizing b with
  | _ p ih =>
    obtain ⟨w, hw, -⟩ := fileOpener_head h
    have hp : FenceAt t p := hw.fenceAt
    constructor
    · intro hmem
      by_cases hlead : ∃ q, Leads t q p
      · obtain ⟨q, b', hb', hqp, hpq⟩ := hlead
        obtain ⟨n, hn⟩ := exists_inRow t q
        -- a block opened at `q` would hold the fence at `p`
        have hodd : n % 2 ≠ 0 := by
          intro heven
          have hend := Scan.end_le_of_mem_scan hmem ((ih q hqp hb').2 ⟨n, hn, heven⟩) hqp
          omega
        exact ⟨n + 1, InRow.next ⟨b', hb', hqp, hpq⟩ hn, by omega⟩
      · exact ⟨0, InRow.first (not_exists.1 hlead), rfl⟩
    · rintro ⟨n, hn, heven⟩
      have hlt : p < t.length := by
        have hle := hw.length_le
        rw [List.length_drop] at hle
        omega
      refine Scan.mem_scan_of moves_file (Nat.zero_le p) (by omega) h fun q b' hmem hqp => ?_
      by_contra hover
      have hb' := (mem_blocks hmem).2
      have hlead : Leads t q p := ⟨b', hb', hqp, by omega⟩
      obtain ⟨k, hk, hkeven⟩ := (ih q hqp hb').1 hmem
      have hrow := hn.unique hp (InRow.next hlead hk)
      omega

/-! ## Questions are read outside the files -/

/-- The place a question was read at, moved by at most the three characters of a closing
fence, is in none of the files. -/
def Outside (files : List (Nat × Nat)) (content : List Char) (g : Found) : Prop :=
  ∃ k ≤ 3, g.stop + k ≤ content.length ∧
    ∀ d ∈ files, ¬ (d.1 ≤ g.start + k ∧ g.stop + k ≤ d.2)

theorem objectEnd_le {depth : Int} {inString escaped : Bool} {i e : Nat}
    (h : objectEnd depth inString escaped i t = some e) : e ≤ i + t.length := by
  induction t generalizing depth inString escaped i with
  | nil => cases inString <;> cases h
  | cons ch t ih =>
    have hnext : ∀ {depth inString escaped}, objectEnd depth inString escaped (i + 1) t = some e →
        e ≤ i + (t.length + 1) := by
      intro depth inString escaped h
      have hle := ih h
      omega
    rw [List.length_cons]
    cases inString with
    | true =>
      rw [objectEnd] at h
      split at h
      · exact hnext h
      · split at h
        · exact hnext h
        · exact hnext h
    | false =>
      rw [objectEnd] at h
      split at h
      · exact hnext h
      · split at h
        · exact hnext h
        · split at h
          · split at h
            · cases h
              omega
            · exact hnext h
          · exact hnext h

theorem questionCandidates_le {src : List Char} {c : Nat × Nat} (h : c ∈ questionCandidates src) :
    c.1 < src.length ∧ c.2 ≤ src.length := by
  obtain ⟨i, hi, hc⟩ := List.mem_filterMap.1 h
  have hlt : i < src.length := List.mem_range.1 hi
  split at hc
  · cases hc
    refine ⟨hlt, ?_⟩
    cases he : objectEnd 0 false false i (src.drop i) with
    | none => exact Nat.le_refl _
    | some e =>
      have hle := objectEnd_le he
      rw [List.length_drop] at hle
      rw [Option.getD_some]
      omega
  · cases hc

section Collect

variable {L : Lowercase} {questionsOf : List Char → List AskQ} {files : List (Nat × Nat)}
  {content : List Char}

/-- All the questions of `r` were read outside the files. -/
def AllOutside (files : List (Nat × Nat)) (content : List Char) (r : Collected) : Prop :=
  ∀ g ∈ r.found, Outside files content g

theorem AllOutside.push {r : Collected} {start stop : Nat} (h : AllOutside files content r)
    (hplace : ∀ q, Outside files content ⟨q, start, stop⟩) (q : AskQ) :
    AllOutside files content (r.push L start stop q) := by
  unfold Collected.push
  split
  · exact h
  · intro g hg
    rcases List.mem_append.1 hg with hg | hg
    · exact h g hg
    · rw [List.mem_singleton.1 hg]
      exact hplace q

theorem AllOutside.foldl_push {r : Collected} {start stop : Nat} (h : AllOutside files content r)
    (hplace : ∀ q, Outside files content ⟨q, start, stop⟩) (qs : List AskQ) :
    AllOutside files content (qs.foldl (Collected.push L start stop) r) := by
  induction qs generalizing r with
  | nil => exact h
  | cons q qs ih => exact ih (h.push hplace q)

theorem AllOutside.collectOne {r : Collected} {body : List Char} {offset origin : Nat}
    {c : Nat × Nat} (h : AllOutside files content r) (horigin : origin ≤ offset)
    (hoffset : offset ≤ origin + 3) (hend : offset + c.2 ≤ content.length) :
    AllOutside files content (collectOne L questionsOf files body offset origin r c) := by
  unfold Ask.collectOne
  split
  · exact h
  · next hnone =>
      have hplace : ∀ q, Outside files content ⟨q, origin + c.1, origin + c.2⟩ := by
        intro q
        refine ⟨offset - origin, by omega, by dsimp only; omega, fun d hd hin => hnone ?_⟩
        dsimp only at hin
        exact List.any_eq_true.2 ⟨d, hd, decide_eq_true ⟨by omega, by omega⟩⟩
      exact AllOutside.foldl_push (r := { r with first := min r.first (offset + c.1) }) h hplace _

theorem AllOutside.collected {r : Collected} {body : List Char} {offset origin : Nat}
    (h : AllOutside files content r) (horigin : origin ≤ offset) (hoffset : offset ≤ origin + 3)
    (hend : body ≠ [] → offset + body.length ≤ content.length) :
    AllOutside files content (collected L questionsOf files body offset origin r) := by
  unfold Ask.collected
  suffices hall : ∀ cs : List (Nat × Nat), (∀ c ∈ cs, offset + c.2 ≤ content.length) →
      ∀ r, AllOutside files content r →
        AllOutside files content
          (cs.foldl (Ask.collectOne L questionsOf files body offset origin) r) by
    refine hall _ (fun c hc => ?_) r h
    obtain ⟨hlt, hle⟩ := questionCandidates_le hc
    have hin := hend (List.ne_nil_of_length_pos (by omega))
    omega
  intro cs
  induction cs with
  | nil => exact fun _ r hr => hr
  | cons c cs ih =>
    intro hcs r hr
    exact ih (fun d hd => hcs d (List.mem_cons_of_mem _ hd)) _
      (hr.collectOne horigin hoffset (hcs c List.mem_cons_self))

theorem AllOutside.collectBlock {r : Collected} {m : Nat × Block}
    {opener : List Char → Option (List Char × Nat)} {toEnd : Bool}
    (h : AllOutside files content r)
    (hm : m.1 < content.length ∧ blockAt opener toEnd (content.drop m.1) = some m.2) :
    AllOutside files content (collectBlock L questionsOf files r m) := by
  have hlen : m.2.head + m.2.body.length ≤ m.2.length ∧
      m.2.length ≤ m.2.head + m.2.body.length + 3 := by
    unfold Block.length
    split <;> omega
  refine AllOutside.collected (r := { r with first := min r.first m.1 }) h (by omega) (by omega)
    fun hbody => ?_
  have hle := length_le_of_blockAt hm.2 hbody
  rw [List.length_drop] at hle
  omega

theorem AllOutside.collectBlocks (opener : Nat → List Char → Option (List Char × Nat))
    (toEnd : Bool) {r : Collected} {ms : List (Nat × Block)} (h : AllOutside files content r)
    (hms : ∀ m ∈ ms, m.1 < content.length ∧
      blockAt (opener m.1) toEnd (content.drop m.1) = some m.2) :
    AllOutside files content (ms.foldl (Ask.collectBlock L questionsOf files) r) := by
  induction ms generalizing r with
  | nil => exact h
  | cons m ms ih =>
    exact ih (h.collectBlock (hms m List.mem_cons_self))
      fun m' hm' => hms m' (List.mem_cons_of_mem _ hm')

theorem outside_of_mem {r : List Found × List Char} (h : parseAsk L questionsOf content = some r) :
    ∀ g ∈ r.1, Outside (fileBounds L content) content g := by
  have hall : AllOutside (fileBounds L content) content (collectAll L questionsOf content) := by
    unfold collectAll
    refine AllOutside.collected ?_ (Nat.le_refl _) (by omega) (fun _ => by omega)
    refine AllOutside.collectBlocks bareOpener true ?_ fun m hm => ?_
    · refine AllOutside.collectBlocks (fun _ => jsonOpener) true ?_ fun m hm => mem_blocks hm
      refine AllOutside.collectBlocks (fun _ => askOpener) true ?_ fun m hm => mem_blocks hm
      intro g hg
      cases hg
    · obtain ⟨-, hlt, hb⟩ := Scan.mem_scan hm
      exact ⟨by omega, hb⟩
  unfold parseAsk at h
  dsimp only at h
  split at h
  · cases h
  · cases h
    exact hall

end Collect

/-! ## The same block as a protocol and as a file -/

theorem not_space_of_label {c : Char} (h : isLabelChar c = true) : isJsSpace c = false := by
  have hn : (48 ≤ c.toNat ∧ c.toNat ≤ 122) ∨ c.toNat = 43 ∨ c.toNat = 45 := by
    simp only [isLabelChar, Bool.or_eq_true, decide_eq_true_eq] at h
    rcases h with ((h | h) | h) | h
    · have halnum := toNat_of_isAlphanum h
      omega
    · rw [h]
      decide
    · rw [h]
      decide
    · rw [h]
      decide
  rw [Bool.eq_false_iff]
  intro hspace
  simp only [isJsSpace, isWhitespace, Bool.or_eq_true, Bool.and_eq_true, decide_eq_true_eq,
    beq_iff_eq, bne_iff_ne] at hspace
  omega

theorem space_of_blank {c : Char} (h : isBlank c = true) : isJsSpace c = true := by
  rcases (Bool.or_eq_true _ _).mp h with h | h <;> rw [of_decide_eq_true h] <;> decide

theorem firstWord_plain {w : List Char} (h : plain w = true) : firstWord w = w.takeWhile isLabelChar := by
  have hblanks : ∀ c ∈ w.dropWhile isLabelChar, isJsSpace c = true :=
    fun c hc => space_of_blank (List.all_eq_true.1 h c hc)
  have hlabel : ∀ c ∈ w.takeWhile isLabelChar, isJsSpace c = false :=
    fun c hc => not_space_of_label (List.mem_takeWhile_imp hc)
  have hw := List.takeWhile_append_dropWhile (p := isLabelChar) (l := w)
  generalize w.takeWhile isLabelChar = label at hlabel hw ⊢
  generalize w.dropWhile isLabelChar = blanks at hblanks hw
  subst hw
  have htrim : trimMatches isJsSpace (label ++ blanks) = label := by
    cases label with
    | nil =>
      rw [List.nil_append, trimMatches, List.dropWhile_eq_nil_iff.2 hblanks]
      rfl
    | cons c label =>
      have hstart : ((c :: label) ++ blanks).dropWhile isJsSpace = (c :: label) ++ blanks :=
        List.dropWhile_cons_of_neg (by simp [hlabel c List.mem_cons_self])
      have hnone : (c :: label).dropWhile isJsSpace = c :: label :=
        List.dropWhile_cons_of_neg (by simp [hlabel c List.mem_cons_self])
      rw [trimMatches, hstart, trimEndMatches_append_of_all hblanks]
      have hself := trimMatches_of_forall hlabel
      rwa [trimMatches, hnone] at hself
  rw [firstWord, htrim, List.takeWhile_eq_self_iff]
  intro c hc
  simp [hlabel c hc]

theorem expect_skip_append {word t : List Char} (hword : word ≠ []) (hline : '\n' ∉ word) :
    expect id word (skip (t ++ ['\n'])) = (expect id word (skip t)).map (· ++ ['\n']) := by
  have hshort : ∀ u : List Char, u.length < word.length → expect id word u = none := by
    intro u hu
    rw [expect, List.map_id, List.take_of_length_le (by omega), if_neg]
    rintro rfl
    omega
  have hskip : skip (t ++ ['\n']) = if skip t = [] then [] else skip t ++ ['\n'] := by
    unfold skip
    rw [List.dropWhile_append]
    simp only [List.isEmpty_iff]
    split <;> rfl
  rw [hskip]
  split
  · next hnil =>
      rw [hnil, hshort [] (List.length_pos_iff.2 hword)]
      rfl
  · generalize skip t = u
    rcases Nat.lt_or_ge u.length word.length with hlt | hge
    · rw [hshort u hlt, Option.map_none, expect, List.map_id, if_neg]
      intro heq
      apply hline
      rw [← heq, List.take_of_length_le (by simp; omega)]
      simp
    · rw [expect, expect, List.take_append_of_le_length hge]
      split
      · rw [List.drop_append_of_le_length hge, Option.map_some]
      · rfl

theorem questionsBody_append (t : List Char) : questionsBody (t ++ ['\n']) = questionsBody t := by
  have hbrace := @expect_skip_append ['\x7b']
  have hword := @expect_skip_append questionsWord
  have hcolon := @expect_skip_append [':']
  have hbracket := @expect_skip_append ['[']
  rw [questionsBody, questionsBody, startsQuestions, startsQuestions, hbrace (by decide) (by decide)]
  cases expect id ['\x7b'] (skip t) with
  | none => rfl
  | some t1 =>
    rw [Option.map_some, Option.bind_some, Option.bind_some, hword (by decide) (by decide)]
    cases expect id questionsWord (skip t1) with
    | none => rfl
    | some t2 =>
      rw [Option.map_some, Option.bind_some, Option.bind_some, hcolon (by decide) (by decide)]
      cases expect id [':'] (skip t2) with
      | none => rfl
      | some t3 =>
        rw [Option.map_some, Option.bind_some, Option.bind_some,
          hbracket (by decide) (by decide), Option.isSome_map]

theorem questionsBody_dropLastNewline (t : List Char) :
    questionsBody (dropLastNewline t) = questionsBody t := by
  unfold dropLastNewline
  split
  · next h =>
      obtain ⟨u, rfl⟩ := List.getLast?_eq_some_iff.1 h
      rw [List.dropLast_concat, questionsBody_append]
  · rfl

/-- What is no protocol for `parseArtifacts` is no questionnaire for `fileBounds`. -/
theorem not_questions_of_same {L : Lowercase} {b b' : Block}
    (hplain : plain b.label = true) (hsame : Same t b b') (h : isProtocol L b = false) :
    isQuestionsBlock L b'.label b'.body = false := by
  have hbody : questionsBody b'.body = questionsBody (dropLastNewline b.body) := by
    rw [questionsBody_dropLastNewline]
    rcases hsame.body with ⟨-, hbody, -⟩ | ⟨-, hbody, -⟩
    · rw [hbody]
    · rw [hbody, questionsBody_append]
  have hq : isQuestionsBlock L (firstWord b.label) (dropLastNewline b.body) = false :=
    ((Bool.or_eq_false_iff).1 h).2
  rw [firstWord_plain hplain] at hq
  rw [hsame.label, isQuestionsBlock, hbody]
  exact hq

/-! ## The files that are taken out -/

/-- What one match can add to the files. -/
def Loop.Adds (L : Lowercase) (m : Nat × Block) (r r' : Loop) : Prop :=
  r'.files = r.files ∨ ∃ a, isProtocol L m.2 = false ∧ r'.files = r.files ++ [(m.1, m.2, a)]

theorem Loop.next_adds (L : Lowercase) (names : Names) (content : List Char) (r : Loop)
    (m : Nat × Block) : Loop.Adds L m r (Loop.next L names content r m) := by
  unfold Loop.next
  refine iteInduction (fun _ => Or.inl rfl) fun hp => ?_
  refine iteInduction (fun _ => Or.inl rfl) fun _ => ?_
  exact iteInduction (fun _ => Or.inl rfl) fun _ => Or.inr ⟨_, Bool.eq_false_iff.2 hp, rfl⟩

theorem extracted_mem {L : Lowercase} {names : Names} {content : List Char}
    {f : Nat × Block × Artifact} (hf : f ∈ fencedArtifacts L names content) :
    (f.1, f.2.1) ∈ blocks artifactOpener false content ∧ isProtocol L f.2.1 = false := by
  suffices hall : ∀ (ms : List (Nat × Block)) (r : Loop),
      (∀ f ∈ r.files, (f.1, f.2.1) ∈ blocks artifactOpener false content ∧
        isProtocol L f.2.1 = false) →
      (∀ m ∈ ms, m ∈ blocks artifactOpener false content) →
      ∀ f ∈ (ms.foldl (Loop.next L names content) r).files,
        (f.1, f.2.1) ∈ blocks artifactOpener false content ∧ isProtocol L f.2.1 = false from
    hall _ _ (fun _ h => by cases h) (fun _ hm => hm) f hf
  intro ms
  induction ms with
  | nil => exact fun _ hr _ => hr
  | cons m ms ih =>
    intro r hr hms
    refine ih _ (fun g hg => ?_) fun m' hm' => hms m' (List.mem_cons_of_mem _ hm')
    rcases Loop.next_adds L names content r m with heq | ⟨a, hp, heq⟩
    · rw [heq] at hg
      exact hr g hg
    · rw [heq] at hg
      rcases List.mem_append.1 hg with hg | hg
      · exact hr g hg
      · rw [List.mem_singleton.1 hg]
        exact ⟨hms m List.mem_cons_self, hp⟩

/-! ## A file or a questionnaire -/

/-- The bounds of a file hold the opening line of the block at `p`, and all that the answer
has of it. -/
def Covered (L : Lowercase) (content : List Char) (p : Nat) (b : Block) : Prop :=
  ∃ d ∈ fileBounds L content,
    d.1 ≤ p ∧ p + b.head ≤ d.2 ∧ min (p + b.length) content.length ≤ d.2

/-- No question comes from an object inside the body of the block at `p`. -/
def Unasked (L : Lowercase) (questionsOf : List Char → List AskQ) (content : List Char) (p : Nat)
    (b : Block) : Prop :=
  ∀ r, parseAsk L questionsOf content = some r →
    ∀ g ∈ r.1, ¬ (p + b.head ≤ g.start ∧ g.stop ≤ p + b.head + b.body.length)

/-- What the answer must look like around a block. -/
structure Framed (content : List Char) (p : Nat) (b : Block) : Prop where
  plain : plain b.label = true
  line : p + b.head ≤ content.length
  labelled : p + b.length ≤ content.length ∨ b.label.takeWhile isLabelChar ≠ []
  row : ∃ n, InRow content n p ∧ n % 2 = 0

theorem mem_fileBounds {L : Lowercase} {content : List Char} {d : Nat × Nat} :
    d ∈ fileBounds L content ↔ ∃ p b, (p, b) ∈ blocks fileOpener true content ∧
      isFile L b = true ∧ d = (p, p + b.length) := by
  constructor
  · intro h
    obtain ⟨m, hm, rfl⟩ := List.mem_map.1 h
    obtain ⟨hmem, hfile⟩ := List.mem_filter.1 hm
    exact ⟨m.1, m.2, hmem, hfile, rfl⟩
  · rintro ⟨p, b, hmem, hfile, rfl⟩
    exact List.mem_map.2 ⟨(p, b), List.mem_filter.2 ⟨hmem, hfile⟩, rfl⟩

theorem Opens.unique {t w w' : List Char} (h : Opens t w) (h' : Opens t w') : w = w' := by
  have hw : artifactOpener t = some (w, w.length + 4) := artifactOpener_eq_some.2 ⟨h, rfl⟩
  have hw' : artifactOpener t = some (w', w'.length + 4) := artifactOpener_eq_some.2 ⟨h', rfl⟩
  exact (Prod.mk.inj (Option.some.inj (hw.symm.trans hw'))).1

theorem Opens.append {t w : List Char} (h : Opens t w) (z : List Char) : Opens (t ++ z) w := by
  obtain ⟨htick, hline, s, rfl⟩ := h
  exact ⟨htick, hline, s ++ z, by simp⟩

theorem FenceAt.of_append {t z : List Char} {p : Nat} (hz : z = [] ∨ z = forced)
    (h : FenceAt (t ++ z) p) (hp : p < t.length) : FenceAt t p := by
  rcases hz with rfl | rfl
  · rwa [List.append_nil] at h
  · exact h.of_forced hp

theorem start_lt {content z : List Char} {p : Nat} {b : Block} (hz : z = [] ∨ z = forced)
    (h : (p, b) ∈ blocks artifactOpener false (content ++ z)) : p < content.length := by
  obtain ⟨hlt, hb⟩ := mem_blocks h
  by_contra hge
  rw [List.length_append] at hlt
  rcases hz with rfl | rfl
  · rw [List.length_nil] at hlt
    omega
  · -- nothing opens in the forced end
    have hnone : ∀ k < 4, blockAt artifactOpener false (forced.drop k) = none := by decide
    have hfour : forced.length = 4 := rfl
    rw [List.drop_append, List.drop_of_length_le (by omega), List.nil_append,
      hnone (p - content.length) (by omega)] at hb
    cases hb

section Apart

variable {L : Lowercase} {content z : List Char} {p : Nat} {b : Block}

theorem covered_of_framed (hz : z = [] ∨ z = forced)
    (hmem : (p, b) ∈ blocks artifactOpener false (content ++ z)) (hp : isProtocol L b = false)
    (h : Framed content p b) : Covered L content p b := by
  have hlt := start_lt hz hmem
  obtain ⟨-, hb⟩ := mem_blocks hmem
  rw [List.drop_append_of_le_length (by omega)] at hb
  obtain ⟨hopens, hhead, -⟩ := artifactOpener_head hb
  have hline := h.line
  have hlen : (content.drop p).length = content.length - p := List.length_drop
  have hw : Opens (content.drop p) b.label := by
    rcases opens_append hz hopens with hw | ⟨-, hall⟩
    · exact hw
    · -- the line feed would be the forced one
      have hshort := congrArg List.length hall
      rw [List.length_append] at hshort
      simp only [fence, List.length_cons, List.length_nil] at hshort
      omega
  obtain ⟨b', hb', hsame⟩ := file_at hz hb hw h.plain
  have hfile : isFile L b' = true := by
    rw [isFile, not_questions_of_same h.plain hsame hp, Bool.not_false, Bool.true_and,
      Bool.or_eq_true, decide_eq_true_eq, hsame.label]
    rcases hsame.body with ⟨hclosed, -⟩ | ⟨-, -, -, hlong⟩
    · exact Or.inr hclosed
    · refine Or.inl (h.labelled.resolve_left ?_)
      omega
  refine ⟨_, mem_fileBounds.2 ⟨p, b', (opened_iff hb').2 h.row, hfile, rfl⟩, Nat.le_refl _, ?_, ?_⟩
  · have hhead' := hsame.head
    dsimp only
    unfold Block.length
    omega
  · dsimp only
    rcases hsame.body with ⟨-, -, hsize, -⟩ | ⟨-, -, hsize, -⟩ <;> omega

theorem framed_of_covered (hz : z = [] ∨ z = forced)
    (hmem : (p, b) ∈ blocks artifactOpener false (content ++ z))
    (h : Covered L content p b) : Framed content p b := by
  have hlt := start_lt hz hmem
  obtain ⟨-, hb⟩ := mem_blocks hmem
  have hfence : FenceAt content p := (artifactOpener_head hb).1.fenceAt.of_append hz hlt
  rw [List.drop_append_of_le_length (by omega)] at hb
  obtain ⟨hopens, hhead, -⟩ := artifactOpener_head hb
  have hlen : (content.drop p).length = content.length - p := List.length_drop
  obtain ⟨d, hd, hstart, hline, -⟩ := h
  obtain ⟨q, b', hmem', hfile, rfl⟩ := mem_fileBounds.1 hd
  dsimp only at hstart hline
  obtain ⟨-, hb'⟩ := mem_blocks hmem'
  have hqp : q = p := by
    rcases Nat.eq_or_lt_of_le hstart with heq | hbefore
    · exact heq
    · -- a file that began earlier would end with the fence at `p`
      have hend := fence_behind hb' hfence hbefore
      have hle := length_le_of_file b'
      omega
  subst hqp
  obtain ⟨w, hw, hplain, -, -⟩ := fileOpener_head hb'
  have hlabel : w = b.label := (hw.append z).unique hopens
  subst hlabel
  have hall := hw.length_le
  obtain ⟨b'', hb'', hsame⟩ := file_at hz hb hw hplain
  have heq : b'' = b' := Option.some.inj (hb''.symm.trans hb')
  subst heq
  refine ⟨hplain, by omega, ?_, (opened_iff hb').1 hmem'⟩
  rcases hsame.body with ⟨-, -, -, hfits⟩ | ⟨hopen, -⟩
  · exact Or.inl (by omega)
  · -- an orphan fence is no file
    rw [isFile, hopen, Bool.or_false, Bool.and_eq_true, decide_eq_true_eq, hsame.label] at hfile
    exact Or.inr hfile.2

theorem unasked_of_covered {questionsOf : List Char → List AskQ} (hclosed : b.closed = true)
    (h : Covered L content p b) : Unasked L questionsOf content p b := by
  intro r hr g hg hin
  obtain ⟨k, hk, hend, hout⟩ := outside_of_mem hr g hg
  obtain ⟨d, hd, hstart, -, hstop⟩ := h
  have hlen := Block.length_of_closed hclosed
  refine hout d hd ⟨by omega, ?_⟩
  have hmin : g.stop + k ≤ min (p + b.length) content.length := Nat.le_min.2 ⟨by omega, hend⟩
  exact hmin.trans hstop

end Apart

/-- A fenced file is covered by the bounds of the files, and no question comes from it, exactly
if the answer around it is framed: the opening line complete and with a plain label, no forced
end without a label, and an even row of opening lines before it. -/
theorem file_apart_iff (L : Lowercase) (questionsOf : List Char → List AskQ) (names : Names)
    (content : List Char) (f : Nat × Block × Artifact)
    (hf : f ∈ fencedArtifacts L names (closedContent content)) :
    (Covered L content f.1 f.2.1 ∧ Unasked L questionsOf content f.1 f.2.1) ↔
      Framed content f.1 f.2.1 := by
  obtain ⟨z, hz, hclose⟩ := closedContent_eq content
  obtain ⟨hmem, hp⟩ := extracted_mem hf
  rw [hclose] at hmem
  constructor
  · rintro ⟨hcovered, -⟩
    exact framed_of_covered hz hmem hcovered
  · intro hframed
    have hcovered := covered_of_framed hz hmem hp hframed
    exact ⟨hcovered, unasked_of_covered (artifactOpener_head (mem_blocks hmem).2).2.2 hcovered⟩

/-! ## Two answers -/

/-- The names of the files of the two answers: nothing is announced, and Python has an
extension. -/
def fewNames : Names where
  titleFromContext _ := []
  isExcerptOf _ _ _ _ := false
  known _ := none
  ext lang := if lang = "py".toList then some lang else none
  askedFileNames := []
  fallback n ext := "fichier-".toList ++ n.repr.toList ++ '.' :: ext.getD "txt".toList

def quizObject : List Char := "\x7b\"question\": \"q\", \"options\": [\"a\"]\x7d".toList

/-- What the object of the second answer asks. -/
def quizQuestions (text : List Char) : List AskQ :=
  if text = quizObject then [⟨"q".toList, ["a".toList]⟩] else []

/-- Six empty lines of Python. -/
def pyAnswer : List Char := fence ++ "py\n\n\n\n\n\n\n".toList ++ fence

def pyFile : Nat × Block × Artifact :=
  (0, ⟨"py".toList, 6, "\n\n\n\n\n\n".toList, true⟩,
    ⟨"fichier-2.py".toList, "py".toList, "\n\n\n\n\n".toList⟩)

theorem py_file_apart : Covered asciiLowercase pyAnswer pyFile.1 pyFile.2.1 ∧
      Unasked asciiLowercase quizQuestions pyAnswer pyFile.1 pyFile.2.1 :=
  (file_apart_iff asciiLowercase quizQuestions fewNames pyAnswer pyFile (by decide +kernel)).2
    { plain := by decide
      line := by decide
      labelled := Or.inl (by decide)
      row := ⟨0, InRow.first fun q ⟨_, _, hq, _⟩ => absurd hq (Nat.not_lt_zero q), rfl⟩ }

/-- A quiz in a file with its name behind the fence. -/
def quizAnswer : List Char := fence ++ "quiz.json\n".toList ++ quizObject ++ '\n' :: fence

/-- The file `quiz.json` is taken out of the answer, and its question is asked. -/
theorem quiz_file_asked : ∃ f ∈ fencedArtifacts asciiLowercase fewNames (closedContent quizAnswer),
      ¬ Covered asciiLowercase quizAnswer f.1 f.2.1 ∧
        ¬ Unasked asciiLowercase quizQuestions quizAnswer f.1 f.2.1 := by
  have hbounds : fileBounds asciiLowercase quizAnswer = [] := by decide +kernel
  have hasked : parseAsk asciiLowercase quizQuestions quizAnswer =
      some ([⟨⟨"q".toList, ["a".toList]⟩, 13, 48⟩], []) := by decide +kernel
  refine ⟨(0, ⟨"quiz.json".toList, 13, quizObject ++ ['\n'], true⟩,
    ⟨"quiz.json".toList, "json".toList, quizObject⟩), by decide +kernel, ?_, ?_⟩
  · rintro ⟨d, hd, -⟩
    rw [hbounds] at hd
    cases hd
  · intro hunasked
    exact hunasked _ hasked _ List.mem_cons_self (by decide)

end Portal.Ask
