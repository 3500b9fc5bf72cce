import DgxPlatform.Lib.Replace

/-! # Tagged text

A text with tags as a list of chunks, a tag and the text behind it, and what a reader
finds that searches it for tags as substrings. A tag that is searched for is found at
the first chunk that has it, since no sign of markup stands elsewhere.

* `tag_raw`, `tag_raw_eq_none`: the text of the first element of a name.
* `split_raw`: the text, split at a tag.
* `unescape_written`: the five named characters are read back.
-/

namespace Markup

open Framing

structure Chunk where
  tag : List Char
  text : List Char

def Chunk.raw (c : Chunk) : List Char := '<' :: (c.tag ++ '>' :: c.text)

def raw (cs : List Chunk) : List Char := cs.flatMap Chunk.raw

/-- No sign of markup inside. -/
def Chunk.Clean (c : Chunk) : Prop := '<' ∉ c.tag ∧ '>' ∉ c.tag ∧ '<' ∉ c.text

def opening (name : List Char) : List Char := '<' :: (name ++ ['>'])

def closing (name : List Char) : List Char := opening ('/' :: name)

/-- What stands between the first tag of a name and the next closing one. -/
def tag (t name : List Char) : Option (List Char) :=
  (cut (opening name) t).bind fun p => (cut (closing name) p.2).map Prod.fst

variable {name t : List Char} {c d : Chunk} {cs before behind : List Chunk}

theorem opening_ne_nil : opening name ≠ [] := List.cons_ne_nil _ _

theorem raw_cons (c : Chunk) (cs : List Chunk) : raw (c :: cs) = c.raw ++ raw cs := rfl

theorem raw_append (cs ds : List Chunk) : raw (cs ++ ds) = raw cs ++ raw ds := List.flatMap_append

/-! ## One tag -/

theorem cut_here (h : c.tag = name) (rest : List Char) :
    cut (opening name) (c.raw ++ rest) = some ([], c.text ++ rest) := by
  have hraw : c.raw ++ rest = [] ++ opening name ++ (c.text ++ rest) := by
    simp [Chunk.raw, opening, h]
  rw [hraw]
  exact cut_part List.not_mem_nil _

theorem cut_past (hc : c.Clean) (hname : '>' ∉ name) (hne : c.tag ≠ name) (rest : List Char) :
    cut (opening name) (c.raw ++ rest) = (cut (opening name) rest).map fun r => (c.raw ++ r.1, r.2) := by
  rcases hc with ⟨htag, hend, htext⟩
  have hno : ¬ opening name <+: c.raw ++ rest := by
    rintro ⟨u, hu⟩
    have hboth : name ++ '>' :: u = c.tag ++ '>' :: (c.text ++ rest) := by
      simpa [opening, Chunk.raw] using hu
    exact hne (eq_of_first hname hend hboth).1.symm
  have hin : '<' ∉ c.tag ++ '>' :: c.text := by
    rw [List.mem_append, List.mem_cons, not_or, not_or]
    exact ⟨htag, by decide, htext⟩
  have hbehind : cut (opening name) (c.tag ++ '>' :: c.text ++ rest) =
      (cut (opening name) rest).map fun r => (c.tag ++ '>' :: c.text ++ r.1, r.2) :=
    cut_append_of_not_mem hin rest
  unfold Chunk.raw at hno ⊢
  rw [List.cons_append] at hno ⊢
  rw [cut, if_neg hno, hbehind, Option.map_map]
  rfl

/-- A tag that the chunks do not have is searched for behind them. -/
theorem cut_raw (hcs : ∀ c ∈ cs, c.Clean) (hname : '>' ∉ name) (hne : ∀ c ∈ cs, c.tag ≠ name) (rest : List Char) :
    cut (opening name) (raw cs ++ rest) = (cut (opening name) rest).map fun r => (raw cs ++ r.1, r.2) := by
  induction cs with
  | nil => simp [raw]
  | cons c cs ih =>
    rw [List.forall_mem_cons] at hcs hne
    rw [raw_cons, List.append_assoc, cut_past hcs.1 hname hne.1, ih hcs.2 hne.2, Option.map_map]
    refine congrArg (fun f => Option.map f (cut (opening name) rest)) (funext fun r => ?_)
    exact congrArg (fun l => (l, r.2)) (List.append_assoc _ _ _).symm

theorem cut_text (ht : '<' ∉ t) (rest : List Char) :
    cut (opening name) (t ++ rest) = (cut (opening name) rest).map fun r => (t ++ r.1, r.2) :=
  cut_append_of_not_mem ht rest

theorem cut_first (ht : '<' ∉ t) (hbefore : ∀ c ∈ before, c.Clean) (hname : '>' ∉ name)
    (hne : ∀ c ∈ before, c.tag ≠ name) (hc : c.tag = name) :
    cut (opening name) (t ++ raw (before ++ c :: behind)) = some (t ++ raw before, c.text ++ raw behind) := by
  rw [cut_text ht, raw_append, raw_cons, cut_raw hbefore hname hne, cut_here hc]
  simp

theorem cut_none (ht : '<' ∉ t) (hcs : ∀ c ∈ cs, c.Clean) (hname : '>' ∉ name) (hne : ∀ c ∈ cs, c.tag ≠ name) :
    cut (opening name) (t ++ raw cs) = none := by
  have hnil := cut_raw hcs hname hne []
  rw [List.append_nil] at hnil
  rw [cut_text ht, hnil]
  rfl

/-! ## Elements -/

theorem tag_raw (ht : '<' ∉ t) (hbefore : ∀ c ∈ before, c.Clean) (hname : '>' ∉ name)
    (hne : ∀ c ∈ before, c.tag ≠ name) (hc : c.tag = name) (hclean : c.Clean) (hd : d.tag = '/' :: name) :
    tag (t ++ raw (before ++ c :: d :: behind)) name = some c.text := by
  rw [tag, cut_first ht hbefore hname hne hc, Option.bind_some, closing]
  rw [raw_cons, cut_text hclean.2.2, cut_here hd]
  simp

theorem tag_raw_eq_none (ht : '<' ∉ t) (hcs : ∀ c ∈ cs, c.Clean) (hname : '>' ∉ name) (hne : ∀ c ∈ cs, c.tag ≠ name) :
    tag (t ++ raw cs) name = none := by
  rw [tag, cut_none ht hcs hname hne]
  rfl

theorem head_split (ht : '<' ∉ t) (hbefore : ∀ c ∈ before, c.Clean) (hname : '>' ∉ name)
    (hne : ∀ c ∈ before, c.tag ≠ name) (hc : c.tag = name) :
    (split (opening name) (t ++ raw (before ++ c :: behind))).headD [] = t ++ raw before := by
  rw [split, frames_of_some opening_ne_nil (cut_first ht hbefore hname hne hc)]
  rfl

theorem split_raw (hname : '>' ∉ name) {front : List Chunk} {blocks : List (Chunk × List Chunk)} (ht : '<' ∉ t)
    (hfront : ∀ c ∈ front, c.Clean ∧ c.tag ≠ name)
    (hblocks : ∀ b ∈ blocks, b.1.tag = name ∧ b.1.Clean ∧ ∀ c ∈ b.2, c.Clean ∧ c.tag ≠ name) :
    split (opening name) (t ++ raw (front ++ blocks.flatMap fun b => b.1 :: b.2)) =
      (t ++ raw front) :: blocks.map fun b => b.1.text ++ raw b.2 := by
  induction blocks generalizing front t with
  | nil =>
    have hnone := cut_none ht (fun c hc => (hfront c hc).1) hname fun c hc => (hfront c hc).2
    rw [List.flatMap_nil, List.append_nil, split, frames_of_none hnone]
    rfl
  | cons b blocks ih =>
    rw [List.forall_mem_cons] at hblocks
    rcases hblocks with ⟨⟨htag, hclean, hin⟩, hrest⟩
    have hcut := @cut_first name t b.1 front (b.2 ++ blocks.flatMap fun b => b.1 :: b.2) ht
      (fun c hc => (hfront c hc).1) hname (fun c hc => (hfront c hc).2) htag
    have hnext := ih hclean.2.2 hin hrest
    rw [split] at hnext
    rw [List.flatMap_cons, List.cons_append, split, frames_of_some opening_ne_nil hcut, List.cons_append, hnext]
    rfl

/-! ## The five characters with a name -/

def ENTITIES : List (Char × List Char) :=
  [('<', "&lt;".toList), ('>', "&gt;".toList), ('"', "&quot;".toList), ('\x27', "&apos;".toList), ('&', "&amp;".toList)]

/-- Names for characters, the ampersand last. -/
def unescape (t : List Char) : List Char := ENTITIES.foldl (fun t e => Replace.replace e.2 [e.1] t) t

/-- A character as it is written: as it is, or by its name. -/
def IsToken (e : Char × List Char) : Prop := e ∈ ENTITIES ∨ e.2 = [e.1] ∧ e.1 ≠ '&' ∧ e.1 ≠ '<'

/-- A text and how it is written. -/
def Written (t w : List Char) : Prop :=
  ∃ es : List (Char × List Char), (∀ e ∈ es, IsToken e) ∧ t = es.map Prod.fst ∧ w = es.flatMap Prod.snd

/-- A writer: the name of each character that has one. -/
def escape (t : List Char) : List Char := t.flatMap fun c => (ENTITIES.lookup c).getD [c]

theorem written_escape (t : List Char) : Written t (escape t) := by
  refine ⟨t.map fun c => (c, (ENTITIES.lookup c).getD [c]), ?_, ?_, ?_⟩
  · intro e he
    rcases List.mem_map.1 he with ⟨c, -, rfl⟩
    cases hname : ENTITIES.lookup c with
    | some w =>
      rcases List.lookup_eq_some_iff.1 hname with ⟨front, rest, hsplit, -⟩
      refine Or.inl ?_
      rw [hsplit]
      exact List.mem_append_right _ List.mem_cons_self
    | none =>
      refine Or.inr ⟨rfl, ?_, ?_⟩
      · rintro rfl
        exact absurd hname (by decide)
      · rintro rfl
        exact absurd hname (by decide)
  · rw [List.map_map]
    exact (List.map_id t).symm
  · rw [List.flatMap_map]
    rfl

/-- A token when some names are read. -/
def shown (read : List (Char × List Char)) (e : Char × List Char) : List Char := if e ∈ read then [e.1] else e.2

/-- A name is an ampersand and more without one, and no name begins with another. -/
theorem entity_facts : ∀ e ∈ ENTITIES, e.2 = '&' :: e.2.tail ∧ '&' ∉ e.2.tail ∧ '<' ∉ e.2 ∧
    ∀ f ∈ ENTITIES, f ≠ e → ¬ f.2 <+: e.2 ∧ ¬ e.2 <+: f.2 := by
  decide

theorem not_mem_written {t w : List Char} (h : Written t w) : '<' ∉ w := by
  rcases h with ⟨es, hes, -, rfl⟩
  intro hmem
  rcases List.mem_flatMap.1 hmem with ⟨e, he, hin⟩
  rcases hes e he with hentity | ⟨hplain, -, hlt⟩
  · exact (entity_facts e hentity).2.2.1 hin
  · rw [hplain, List.mem_singleton] at hin
    exact hlt hin.symm

theorem replace_entity {e f : Char × List Char} (he : e ∈ ENTITIES) (hf : f ∈ ENTITIES) (hne : f ≠ e)
    (r rest : List Char) :
    Replace.replace f.2 r (e.2 ++ rest) = e.2 ++ Replace.replace f.2 r rest := by
  rcases entity_facts e he with ⟨hhead, htail, -, hother⟩
  have hno : ¬ f.2 <+: e.2 ++ rest := by
    intro hp
    rcases List.prefix_or_prefix_of_prefix hp (List.prefix_append e.2 rest) with h | h
    · exact (hother f hf hne).1 h
    · exact (hother f hf hne).2 h
  rw [hhead] at hno ⊢
  rw [List.cons_append] at hno ⊢
  rw [Replace.replace_cons hno, (entity_facts f hf).1, Replace.replace_append_of_head htail]
  rfl

theorem replace_shown {read es : List (Char × List Char)} {f : Char × List Char} (hf : f ∈ ENTITIES) (hfresh : f ∉ read)
    (hread : ∀ e ∈ read, e.1 ≠ '&') (hes : ∀ e ∈ es, IsToken e) :
    Replace.replace f.2 [f.1] (es.flatMap (shown read)) = es.flatMap (shown (f :: read)) := by
  have hhead := (entity_facts f hf).1
  have hplain : ∀ (c : Char) (rest : List Char), c ≠ '&' →
      Replace.replace f.2 [f.1] ([c] ++ rest) = [c] ++ Replace.replace f.2 [f.1] rest := by
    intro c rest hc
    rw [hhead]
    exact Replace.replace_append_of_head (by rw [List.mem_singleton]; exact Ne.symm hc)
  induction es with
  | nil => rfl
  | cons e es ih =>
    rw [List.forall_mem_cons] at hes
    rw [List.flatMap_cons, List.flatMap_cons, ← ih hes.2]
    by_cases hef : e = f
    · subst hef
      rw [shown, if_neg hfresh, shown, if_pos List.mem_cons_self]
      refine Replace.replace_word ?_ _
      rw [hhead]
      exact List.cons_ne_nil _ _
    · by_cases hin : e ∈ read
      · rw [shown, if_pos hin, shown, if_pos (List.mem_cons_of_mem f hin)]
        exact hplain e.1 _ (hread e hin)
      · have hout : e ∉ f :: read := by
          rw [List.mem_cons, not_or]
          exact ⟨hef, hin⟩
        rw [shown, if_neg hin, shown, if_neg hout]
        rcases hes.1 with hentity | ⟨hself, hamp, -⟩
        · exact replace_entity hentity hf (Ne.symm hef) _ _
        · rw [hself]
          exact hplain e.1 _ hamp

theorem foldl_shown {fs read es : List (Char × List Char)} (hfs : ∀ f ∈ fs, f ∈ ENTITIES ∧ f.1 ≠ '&')
    (hnodup : (fs.reverse ++ read).Nodup) (hread : ∀ e ∈ read, e.1 ≠ '&') (hes : ∀ e ∈ es, IsToken e) :
    fs.foldl (fun t e => Replace.replace e.2 [e.1] t) (es.flatMap (shown read)) =
      es.flatMap (shown (fs.reverse ++ read)) := by
  induction fs generalizing read with
  | nil => rfl
  | cons f fs ih =>
    rw [List.forall_mem_cons] at hfs
    have hsame : (f :: fs).reverse ++ read = fs.reverse ++ f :: read := by simp
    rw [hsame] at hnodup ⊢
    have hfresh : f ∉ read := (List.nodup_cons.1 (List.nodup_append.1 hnodup).2.1).1
    rw [List.foldl_cons, replace_shown hfs.1.1 hfresh hread hes]
    refine ih hfs.2 hnodup ?_
    rw [List.forall_mem_cons]
    exact ⟨hfs.1.2, hread⟩

theorem unescape_written {t w : List Char} (h : Written t w) : unescape w = t := by
  rcases h with ⟨es, hes, rfl, rfl⟩
  have hstart : es.flatMap Prod.snd = es.flatMap (shown []) := by
    refine List.flatMap_congr fun e _ => ?_
    rw [shown, if_neg List.not_mem_nil]
  have hend : es.flatMap (shown ENTITIES.reverse) = es.map Prod.fst := by
    rw [← List.flatMap_singleton' (es.map Prod.fst), List.flatMap_map]
    refine List.flatMap_congr fun e he => ?_
    rw [shown]
    split_ifs with hin
    · rfl
    · rcases hes e he with hentity | ⟨hself, -⟩
      · exact absurd (List.mem_reverse.2 hentity) hin
      · exact hself
  -- the four names, then the ampersand's
  have hfour := @foldl_shown (ENTITIES.take 4) [] es (by decide) (by decide) (List.forall_mem_nil _) hes
  have hamp := @replace_shown ((ENTITIES.take 4).reverse ++ []) es ('&', "&amp;".toList) (by decide) (by decide)
    (by decide) hes
  have hlast : unescape (es.flatMap Prod.snd) = Replace.replace "&amp;".toList ['&']
      ((ENTITIES.take 4).foldl (fun t e => Replace.replace e.2 [e.1] t) (es.flatMap Prod.snd)) := rfl
  rw [hlast, hstart, hfour, hamp, ← hend]
  rfl

end Markup
