import DgxPlatform.Lib.Collect
import DgxPlatform.Portal.AskFiles
import DgxPlatform.Portal.AskPrefix
import DgxPlatform.Portal.DumpsRoundTrip

/-! # A message with a questionnaire

`parseAsk` on each beginning of a message with a questionnaire. The block and the message have
the same candidates; what they ask is collected once, so that the complete questions come first
and in order, whatever the repairs made of the last one.
-/

namespace Portal.Ask

open Text
open JsonMachine (prefix_append_cases)
open JsonText (WrittenChar)

variable {spell : Char → List Char}

/-! ## The questions that are complete -/

/-- The questions whose objects are complete in a text, which begins with `start` and the
questionnaire. -/
def completeIn (spell : Char → List Char) (start : List Char) (qs : List AskQ) (p : List Char) : List AskQ :=
  qs.inits.filterMap fun ds => if start ++ '\x7b' :: upTo spell ds <+: p then ds.getLast? else none

theorem completeIn_nil (start p : List Char) : completeIn spell start [] p = [] := by
  refine List.filterMap_eq_nil_iff.2 fun ds hds => ?_
  obtain rfl : ds = [] := List.mem_singleton.1 hds
  exact ite_self none

theorem completeIn_concat (start : List Char) (qs : List AskQ) (q : AskQ) (p : List Char) :
    completeIn spell start (qs ++ [q]) p =
      completeIn spell start qs p ++ if start ++ '\x7b' :: upTo spell (qs ++ [q]) <+: p then [q] else [] := by
  have hinits : (qs ++ [q]).inits = qs.inits ++ [qs ++ [q]] := by
    rw [List.inits_append]
    rfl
  unfold completeIn
  rw [hinits, List.filterMap_append, List.filterMap_cons, List.filterMap_nil, List.getLast?_concat]
  split_ifs <;> rfl

theorem upTo_prefix (qs rest : List AskQ) : upTo spell qs <+: upTo spell (qs ++ rest) := by
  induction rest using List.reverseRecOn with
  | nil => rw [List.append_nil]
  | append_singleton rest q ih =>
    rw [← List.append_assoc, upTo_concat, List.append_assoc]
    exact ih.trans (List.prefix_append _ _)

theorem completeIn_eq {start p : List Char} {done rest : List AskQ}
    (hdone : done ≠ [] → start ++ '\x7b' :: upTo spell done <+: p)
    (hrest : ∀ q behind, rest = q :: behind → ¬ start ++ '\x7b' :: upTo spell (done ++ [q]) <+: p) :
    completeIn spell start (done ++ rest) p = done := by
  have hshorter : ∀ ds es : List AskQ, start ++ '\x7b' :: upTo spell ds <+: start ++ '\x7b' :: upTo spell (ds ++ es) :=
    fun ds es => (List.prefix_append_right_inj start).2 (List.cons_prefix_cons.2 ⟨rfl, upTo_prefix ds es⟩)
  induction rest using List.reverseRecOn with
  | nil =>
    rw [List.append_nil]
    clear hrest
    induction done using List.reverseRecOn with
    | nil => exact completeIn_nil start p
    | append_singleton done q ih =>
      have hall := hdone (List.append_ne_nil_of_right_ne_nil _ (List.cons_ne_nil _ _))
      rw [completeIn_concat, if_pos hall, ih fun _ => (hshorter done [q]).trans hall]
  | append_singleton rest q ih =>
    rw [← List.append_assoc, completeIn_concat, ih, if_neg, List.append_nil]
    · cases rest with
      | nil =>
        rw [List.append_nil]
        exact hrest q [] rfl
      | cons r rest =>
        refine fun hall => hrest r (rest ++ [q]) rfl (List.IsPrefix.trans ?_ hall)
        have hle := hshorter (done ++ [r]) (rest ++ [q])
        rwa [List.append_assoc, List.singleton_append, ← List.cons_append, ← List.append_assoc] at hle
    · rintro r behind rfl
      exact hrest r (behind ++ [q]) rfl

theorem exists_cutAt {qs : List AskQ} {x : List Char} (hx : x <+: '\x7b' :: upTo spell qs) (behind : List AskQ) :
    ∃ done, CutAt spell (qs ++ behind) x done := by
  induction qs using List.reverseRecOn generalizing behind x with
  | nil => exact ⟨[], .head hx⟩
  | append_singleton qs q ih =>
    have hinner : ∀ x, x <+: '\x7b' :: upTo spell qs → ∃ done, CutAt spell (qs ++ [q] ++ behind) x done := by
      intro x hx
      have hcut := ih hx (q :: behind)
      rwa [List.append_cons] at hcut
    have hbetween : ∀ y, y <+: between qs →
        ∃ done, CutAt spell (qs ++ [q] ++ behind) ('\x7b' :: (upTo spell qs ++ y)) done := by
      intro y hy
      unfold between at hy
      split_ifs at hy with hqs
      · rw [List.prefix_nil.1 hy, List.append_nil]
        exact hinner _ List.prefix_rfl
      · rcases List.prefix_cons_iff.1 hy with rfl | ⟨y', rfl, hy'⟩
        · rw [List.append_nil]
          exact hinner _ List.prefix_rfl
        · rw [List.prefix_nil.1 hy', List.append_assoc]
          exact ⟨qs, .behind rfl hqs (.inr (.inl rfl))⟩
    rw [upTo_concat, List.append_assoc, ← List.cons_append] at hx
    rcases prefix_append_cases hx with hx | ⟨y, rfl, hy⟩
    · exact hinner x hx
    rcases prefix_append_cases hy with hy | ⟨z, rfl, hz⟩
    · exact hbetween y hy
    rcases List.prefix_cons_iff.1 hz with rfl | ⟨u, rfl, hu⟩
    · rw [List.append_nil]
      exact hbetween _ List.prefix_rfl
    rcases List.prefix_concat_iff.1 hu with rfl | hu
    · have hcut : CutAt spell (qs ++ [q] ++ behind) ('\x7b' :: (upTo spell (qs ++ [q]) ++ [])) (qs ++ [q]) :=
        .behind rfl (List.append_ne_nil_of_right_ne_nil _ (List.cons_ne_nil _ _)) (.inl rfl)
      rw [List.append_nil, upTo_concat, List.append_assoc (upTo spell qs)] at hcut
      exact ⟨qs ++ [q], hcut⟩
    · exact ⟨qs, .inside (by rw [List.append_assoc]; rfl) hu⟩

theorem exists_cutAt_envelope {qs : List AskQ} (hne : qs ≠ []) {x w : List Char} (hx : x <+: envelope spell qs ++ w) :
    (x <+: envelope spell qs ∧ ∃ done, CutAt spell qs x done) ∨ ∃ v, v <+: w ∧ x = envelope spell qs ++ v := by
  rcases prefix_append_cases hx with hx | ⟨v, rfl, hv⟩
  · have hsplit : envelope spell qs = '\x7b' :: upTo spell qs ++ "]\x7d".toList := rfl
    rw [hsplit] at hx
    rcases prefix_append_cases hx with hx' | ⟨v, rfl, hv⟩
    · obtain ⟨done, hcut⟩ := exists_cutAt hx' []
      rw [List.append_nil] at hcut
      exact .inl ⟨hx, done, hcut⟩
    · have hbehind : ∀ e, e = [] ∨ e = [','] ∨ (([] : List AskQ) = [] ∧ e = [']']) →
          CutAt spell qs ('\x7b' :: (upTo spell qs ++ e)) qs :=
        fun e he => .behind (List.append_nil qs).symm hne he
      rcases List.prefix_cons_iff.1 hv with rfl | ⟨v', rfl, hv'⟩
      · exact .inl ⟨hx, qs, hbehind [] (.inl rfl)⟩
      · rcases List.prefix_cons_iff.1 hv' with rfl | ⟨v'', rfl, hv''⟩
        · exact .inl ⟨hx, qs, hbehind [']'] (.inr (.inr ⟨rfl, rfl⟩))⟩
        · rw [List.prefix_nil.1 hv'']
          exact .inr ⟨[], List.nil_prefix, (List.append_nil _).symm⟩
  · exact .inr ⟨v, hv, rfl⟩

theorem CutAt.completeIn_eq {qs done : List AskQ} {x : List Char} (h : CutAt spell qs x done) (start : List Char) :
    completeIn spell start qs (start ++ x) = done := by
  -- the next question takes more room than there is
  have hroom : ∀ q : AskQ, (upTo spell (done ++ [q])).length =
      (upTo spell done).length + (between done).length + (fieldsText spell q).length + 2 := by
    intro q
    rw [upTo_concat, List.length_append, List.length_append, objectText, List.length_cons, List.length_append,
      List.length_singleton]
    omega
  have hno : ∀ q, x.length < (upTo spell (done ++ [q])).length + 1 →
      ¬ start ++ '\x7b' :: upTo spell (done ++ [q]) <+: start ++ x := by
    intro q hlt hprefix
    have hle := ((List.prefix_append_right_inj start).1 hprefix).length_le
    rw [List.length_cons] at hle
    omega
  cases h with
  | head hx =>
    refine Ask.completeIn_eq (fun hne => absurd rfl hne) fun q behind _ => hno q ?_
    have hle := hx.length_le
    rw [List.length_cons] at hle
    rw [hroom]
    omega
  | behind hqs hne he =>
    rename_i rest e
    rw [hqs]
    have hlen : e.length ≤ 1 := by rcases he with rfl | rfl | ⟨-, rfl⟩ <;> decide
    refine Ask.completeIn_eq (fun _ => ?_) fun q behind _ => hno q ?_
    · rw [List.prefix_append_right_inj, ← List.cons_append]
      exact List.prefix_append _ _
    · rw [hroom, List.length_cons, List.length_append]
      omega
  | inside hqs hu =>
    rename_i rest r u
    rw [hqs]
    refine Ask.completeIn_eq (fun _ => ?_) fun q behind hq => hno q ?_
    · rw [List.prefix_append_right_inj, ← List.cons_append]
      exact List.prefix_append _ _
    · have hle := hu.length_le
      rw [(List.cons.inj hq).1] at hle
      rw [hroom, List.length_cons, List.length_append, List.length_append, List.length_cons]
      omega
  | whole hw =>
    rename_i w
    have hall : start ++ '\x7b' :: upTo spell qs <+: start ++ (envelope spell qs ++ w) := by
      rw [List.prefix_append_right_inj, envelope, List.cons_append, List.append_assoc, ← List.cons_append]
      exact List.prefix_append _ _
    have heq : completeIn spell start (qs ++ []) (start ++ (envelope spell qs ++ w)) = qs :=
      Ask.completeIn_eq (fun _ => hall) fun q behind hq => absurd hq (List.cons_ne_nil q behind).symm
    rwa [List.append_nil] at heq

/-! ## What is collected -/

section Collected

variable (L : Lowercase) (f : List Char → List AskQ)

def Collected.questions (r : Collected) : List AskQ := r.found.map (·.question)

/-- A question has its text, whatever the case. -/
def keep : List AskQ → AskQ → List AskQ := Collect.add (fun q => L.lower q.question) maxAskQuestions

/-- The questions that the candidates of a text carry. -/
def asked (t : List Char) : List AskQ := (candidateTexts t).flatMap f

theorem questions_push (start stop : Nat) (r : Collected) (q : AskQ) :
    (Collected.push L start stop r q).questions = keep L r.questions q := by
  have hany : (r.questions.any fun q' => decide (L.lower q'.question = L.lower q.question)) =
      r.found.any fun f => decide (L.lower f.question.question = L.lower q.question) := List.any_map
  have hlen : r.questions.length = r.found.length := List.length_map _
  unfold Collected.push keep Collect.add
  rw [hany, hlen]
  split_ifs
  · rfl
  · exact List.map_append

theorem questions_foldl_push (start stop : Nat) (r : Collected) (qs : List AskQ) :
    (qs.foldl (Collected.push L start stop) r).questions = qs.foldl (keep L) r.questions := by
  induction qs generalizing r with
  | nil => rfl
  | cons q qs ih => rw [List.foldl_cons, List.foldl_cons, ih, questions_push]

theorem questions_collected (body : List Char) (offset origin : Nat) (r : Collected) :
    (collected L f [] body offset origin r).questions = (asked f body).foldl (keep L) r.questions := by
  unfold collected asked
  rw [← candidateTexts_eq]
  induction questionCandidates body generalizing r with
  | nil => rfl
  | cons c cs ih =>
    have hone : (collectOne L f [] body offset origin r c).questions =
        (f ((body.take c.2).drop c.1)).foldl (keep L) r.questions :=
      questions_foldl_push L (origin + c.1) (origin + c.2) _ _
    rw [List.foldl_cons, List.map_cons, List.flatMap_cons, List.foldl_append, ih, hone]

theorem questions_collectBlock (r : Collected) (m : Nat × Block) :
    (collectBlock L f [] r m).questions = (asked f m.2.body).foldl (keep L) r.questions :=
  questions_collected L f m.2.body _ _ _

theorem found_collected {body : List Char} (h : candidateTexts body = []) (files : List (Nat × Nat))
    (offset origin : Nat) (r : Collected) : (collected L f files body offset origin r).found = r.found := by
  rw [← candidateTexts_eq] at h
  rw [collected, List.map_eq_nil_iff.1 h, List.foldl_nil]

theorem found_collectBlock {m : Nat × Block} (h : candidateTexts m.2.body = []) (files : List (Nat × Nat))
    (r : Collected) : (collectBlock L f files r m).found = r.found := found_collected L f h files _ _ _

theorem found_foldl_collectBlock {ms : List (Nat × Block)} (h : ∀ m ∈ ms, candidateTexts m.2.body = [])
    (files : List (Nat × Nat)) (r : Collected) : (ms.foldl (collectBlock L f files) r).found = r.found := by
  induction ms generalizing r with
  | nil => rfl
  | cons m ms ih =>
    rw [List.forall_mem_cons] at h
    rw [List.foldl_cons, ih h.2, found_collectBlock L f h.1]

end Collected

/-! ## Fences -/

theorem cut_append_of_quiet {a r : List Char} (h : Quiet fenceAt a r) :
    Framing.cut fence (a ++ r) = (Framing.cut fence r).map fun q => (a ++ q.1, q.2) := by
  induction a with
  | nil => exact Option.map_id'.symm
  | cons c a ih =>
    have hno : ¬ fence <+: c :: (a ++ r) := of_decide_eq_false h.head
    rw [List.cons_append, Framing.cut, if_neg hno, ih h.tail, Option.map_map]
    rfl

section Fences

variable (hspell : ∀ c, WrittenChar c (spell c))

include hspell

theorem quiet_literal_fence {o : List Char} (ho : ¬ fence <:+: o) (r : List Char) : Quiet fenceAt (literal spell o) r := by
  have hquote : Quiet fenceAt ['"'] ((o.flatMap spell ++ ['"']) ++ r) := quiet_of_not_mem starts_fenceAt (by decide)
  exact hquote.append (quiet_body_fence hspell ho r)

/-- There is no fence in the texts of a question. -/
def AskQ.Unfenced (q : AskQ) : Prop := ¬ fence <:+: q.question ∧ ∀ o ∈ q.options, ¬ fence <:+: o

theorem quiet_fields_fence {q : AskQ} (hq : q.Unfenced) (r : List Char) : Quiet fenceAt (fieldsText spell q) r := by
  unfold fieldsText
  refine Quiet.append (quiet_of_not_mem starts_fenceAt (by decide)) ?_
  refine Quiet.append (quiet_literal_fence hspell hq.1 _) ?_
  refine Quiet.append (quiet_of_not_mem starts_fenceAt (by decide)) ?_
  refine Quiet.append ?_ (quiet_of_not_mem starts_fenceAt (by decide))
  refine quiet_items (B := fun _ => True) starts_fenceAt (by decide) (fun _ => trivial) ?_ trivial
  intro x hx r _
  obtain ⟨o, ho, rfl⟩ := List.mem_map.1 hx
  exact quiet_literal_fence hspell (hq.2 o ho) r

theorem quiet_object_fence {q : AskQ} (hq : q.Unfenced) (r : List Char) : Quiet fenceAt (objectText spell q) r := by
  have hbrace : Quiet fenceAt ['\x7b'] ((fieldsText spell q ++ ['\x7d']) ++ r) :=
    quiet_of_not_mem starts_fenceAt (by decide)
  exact hbrace.append ((quiet_fields_fence hspell hq _).append (quiet_of_not_mem starts_fenceAt (by decide)))

theorem quiet_envelope_fence {qs : List AskQ} (hqs : ∀ q ∈ qs, q.Unfenced) (r : List Char) :
    Quiet fenceAt (envelope spell qs) r := by
  have hinner : Quiet fenceAt (upTo spell qs ++ "]\x7d".toList) r := by
    unfold upTo
    refine Quiet.append ?_ (quiet_of_not_mem starts_fenceAt (by decide))
    refine Quiet.append (quiet_of_not_mem starts_fenceAt (by decide)) ?_
    refine quiet_items (B := fun _ => True) starts_fenceAt (by decide) (fun _ => trivial) ?_ trivial
    intro x hx r _
    obtain ⟨q, hq, rfl⟩ := List.mem_map.1 hx
    exact quiet_object_fence hspell (hqs q hq) r
  have hhead : Quiet fenceAt ['\x7b'] ((upTo spell qs ++ "]\x7d".toList) ++ r) :=
    quiet_of_not_mem starts_fenceAt (by decide)
  exact hhead.append hinner

end Fences

/-! ## The block -/

/-- The opening line of the block. -/
def opening : List Char := fence ++ "ask\n".toList

/-- The block whose text begins what is left. -/
def askBlock (x : List Char) : Block :=
  match Framing.cut fence x with
  | some r => ⟨"ask".toList, 7, r.1, true⟩
  | none => ⟨"ask".toList, 7, x, false⟩

theorem askOpener_opening (x : List Char) : askOpener (opening ++ x) = some ("ask".toList, 7) :=
  if_pos (List.prefix_append fence _)

theorem fileOpener_opening (x : List Char) : fileOpener (opening ++ x) = some ("ask".toList, 7) :=
  if_pos (List.prefix_append fence _)

theorem jsonOpener_opening (x : List Char) : jsonOpener (opening ++ x) = none :=
  if_pos (List.prefix_append fence _)

variable {opener : List Char → Option (List Char × Nat)}

theorem starts_opener
    (h : ∀ t o, opener t = some o → fence <+: t) : Starts (fun t => (opener t).isSome) '\x60' := by
  intro t ht
  obtain ⟨o, ho⟩ := Option.isSome_iff_exists.1 ht
  exact starts_fenceAt t (decide_eq_true (h t o ho))

theorem isSome_eq_false_of_quiet {a r b : List Char}
    (h : Quiet (fun t => (opener t).isSome) a r) (hb : b <:+ a) (hne : b ≠ []) (toEnd : Bool) :
    blockAt opener toEnd (b ++ r) = none := by
  have hnone : opener (b ++ r) = none := Option.isSome_eq_false_iff.1 (h b hb hne) |> Option.isNone_iff_eq_none.1
  rw [blockAt, hnone]
  rfl

theorem blocks_of_quiet {p : List Char}
    (h : Quiet (fun t => (opener t).isSome) p []) (toEnd : Bool) : blocks opener toEnd p = [] := by
  refine List.eq_nil_iff_forall_not_mem.2 ?_
  rintro ⟨q, b⟩ hmem
  obtain ⟨hlt, hb⟩ := mem_blocks hmem
  have hne : p.drop q ≠ [] := fun hnil => absurd (List.drop_eq_nil_iff.1 hnil) (by omega)
  have hnone := isSome_eq_false_of_quiet h (List.drop_suffix q p) hne toEnd
  rw [List.append_nil, hb] at hnone
  cases hnone

variable {t : List Char}

theorem askOpener_spec {o : List Char × Nat} (h : askOpener t = some o) : fence <+: t ∧ 0 < o.2 := by
  unfold askOpener at h
  split_ifs at h with hfence
  obtain ⟨u, -, hu⟩ := Option.bind_eq_some_iff.1 h
  obtain ⟨blanks, s, -, -, rfl⟩ := lineEnd_eq_some.1 hu
  exact ⟨hfence, Nat.succ_pos _⟩

theorem fileOpener_spec {o : List Char × Nat} (h : fileOpener t = some o) : fence <+: t ∧ 0 < o.2 := by
  obtain ⟨w, hw, -, rfl⟩ := fileOpener_eq_some.1 h
  exact ⟨hw.fenceAt (p := 0), Nat.succ_pos _⟩

theorem length_askBlock {x : List Char} (hx : ∀ r, Framing.cut fence x = some r → r.2 = []) :
    (askBlock x).length = 7 + x.length := by
  unfold askBlock
  cases hcut : Framing.cut fence x with
  | none => rfl
  | some r =>
    have hlen := congrArg List.length (Framing.eq_of_cut (a := r.1) (b := r.2) hcut)
    rw [hx r hcut, List.append_nil, List.length_append] at hlen
    rw [hlen]
    show 7 + r.1.length + 3 = 7 + (r.1.length + 3)
    omega

theorem blocks_opening {before x : List Char} (hspec : ∀ t o, opener t = some o → fence <+: t ∧ 0 < o.2)
    (hopen : ∀ x, opener (opening ++ x) = some ("ask".toList, 7)) (hbefore : '\x60' ∉ before)
    (hx : ∀ r, Framing.cut fence x = some r → r.2 = []) :
    blocks opener true (before ++ (opening ++ x)) = [(before.length, askBlock x)] := by
  have hmoves : Scan.Moves (fun _ : Nat => blockAt opener true) Block.length := by
    intro pos t b hb
    have hpos := (hspec t _ (blockAt_eq_some.1 hb).1).2
    dsimp only at hpos
    unfold Block.length
    omega
  have hstart := starts_opener fun t o ho => (hspec t o ho).1
  have hskip : ∀ i < before.length, blockAt opener true (before.drop i ++ (opening ++ x)) = none := by
    intro i hi
    have hne : before.drop i ≠ [] := fun hnil => absurd (List.drop_eq_nil_iff.1 hnil) (by omega)
    exact isSome_eq_false_of_quiet (quiet_of_not_mem hstart hbefore) (List.drop_suffix i before) hne true
  have hblock : blockAt opener true (opening ++ x) = some (askBlock x) := by
    have hdrop : (opening ++ x).drop 7 = x := rfl
    rw [blockAt, hopen, Option.bind_some]
    dsimp only
    rw [hdrop, askBlock]
    cases Framing.cut fence x <;> rfl
  have hcons : opening ++ x = '\x60' :: (opening.tail ++ x) := rfl
  have hend : (opening ++ x).drop (askBlock x).length = [] := by
    rw [length_askBlock hx]
    exact List.drop_of_length_le (by rw [List.length_append]; exact Nat.le_refl _)
  rw [blocks, Scan.scan_append hmoves hskip]
  rw [hcons] at hblock hend ⊢
  rw [Scan.scan_cons hmoves, hblock]
  dsimp only
  rw [hend, Scan.scan_nil, Nat.zero_add]

/-- Where a block without `ask` begins. -/
def jsonAt (t : List Char) : Bool := (jsonOpener t).isSome

theorem jsonOpener_fence {o : List Char × Nat} (h : jsonOpener t = some o) : fence <+: t := by
  unfold jsonOpener at h
  split_ifs at h with hfence
  exact hfence

theorem starts_jsonAt : Starts jsonAt '\x60' := starts_opener fun _ _ => jsonOpener_fence

theorem quiet_json_of_fence {a r : List Char} (h : Quiet fenceAt a r) : Quiet jsonAt a r := by
  intro b hb hne
  rw [Bool.eq_false_iff]
  intro hmatch
  obtain ⟨o, ho⟩ := Option.isSome_iff_exists.1 hmatch
  exact of_decide_eq_false (h b hb hne) (jsonOpener_fence ho)

theorem quiet_json_opening (x : List Char) : Quiet jsonAt opening x := by
  have hopening : jsonAt (opening ++ x) = false := by
    rw [jsonAt, jsonOpener_opening]
    rfl
  -- two backticks are no fence
  have htwo : ∀ y, ¬ fence <+: '\x60' :: '\x60' :: 'a' :: y := by
    rintro y ⟨u, hu⟩
    cases hu
  have hone : ∀ y, ¬ fence <+: '\x60' :: 'a' :: y := by
    rintro y ⟨u, hu⟩
    cases hu
  have hword : Quiet fenceAt "ask\n".toList x := quiet_of_not_mem starts_fenceAt (by decide)
  exact .cons hopening (quiet_json_of_fence (.cons (decide_eq_false (htwo _)) (.cons (decide_eq_false (hone _)) hword)))

/-- The ends of a message: nothing, or a fence, perhaps on a line of its own. -/
def closings : List (List Char) := [[], fence, '\n' :: fence]

/-- What a beginning of an end holds. -/
structure Closing (v : List Char) : Prop where
  brace : '\x7b' ∉ v
  json : Quiet jsonAt v []
  cut_eq : ∀ r, Framing.cut fence v = some r → r.2 = [] ∧ '\x7b' ∉ r.1

theorem closing_of_prefix {v w : List Char} (hw : w ∈ closings) (hv : v <+: w) : Closing v := by
  have hall : ∀ w ∈ closings, ∀ v ∈ w.inits, '\x7b' ∉ v ∧ (∀ b ∈ v.tails, b ≠ [] → jsonAt (b ++ []) = false) ∧
      ∀ r ∈ Framing.cut fence v, r.2 = [] ∧ '\x7b' ∉ r.1 := by
    decide +kernel
  obtain ⟨hbrace, hjson, hcut⟩ := hall w hw v ((List.mem_inits _ _).2 hv)
  exact ⟨hbrace, fun b hb => hjson b ((List.mem_tails _ _).2 hb), fun r hr => hcut r hr⟩

/-! ## The line without fences -/

theorem eq_append_drop {a t : List Char} (h : a <+: t) : t = a ++ t.drop a.length :=
  (List.prefix_iff_eq_append.1 h).symm

theorem exists_tick (t : List Char) :
    ∃ k s, t = k ++ s ∧ (t.takeWhile (· = '\x60')).take 1 = k ∧ (k = [] ∨ k = ['\x60']) := by
  cases t with
  | nil => exact ⟨[], [], rfl, rfl, .inl rfl⟩
  | cons c t =>
    by_cases hc : c = '\x60'
    · refine ⟨['\x60'], t, by rw [hc]; rfl, ?_, .inr rfl⟩
      rw [hc]
      rfl
    · refine ⟨[], c :: t, rfl, ?_, .inl rfl⟩
      rw [List.takeWhile_cons, decide_eq_false hc]
      rfl

theorem askLine_eq_some {n : Nat} (h : askLine t = some n) :
    ∃ a s, t = a ++ s ∧ a.length = n ∧ '\x7b' ∉ a ∧ a.count '\x60' ≤ 2 ∧ 2 ≤ a.length := by
  unfold askLine at h
  dsimp only at h
  have hblanks := eq_append_drop (List.takeWhile_prefix (l := t) isBlank)
  have hblank : ∀ c ∈ t.takeWhile isBlank, isBlank c = true := fun c hc => List.mem_takeWhile_imp hc
  generalize t.takeWhile isBlank = blanks at h hblanks hblank
  generalize t.drop blanks.length = t1 at h hblanks
  obtain ⟨tick, t2, rfl, htake, htick⟩ := exists_tick t1
  rw [htake, List.drop_left] at h
  obtain ⟨rest, hword, hend⟩ := Option.bind_eq_some_iff.1 h
  obtain ⟨hfold, hrest⟩ := expect_eq_some hword
  have hsplit := List.take_append_drop 3 t2
  have hlen : (t2.take 3).length = 3 := by
    have hlen := congrArg List.length hfold
    rwa [List.length_map] at hlen
  have hfolds : ∀ c ∈ t2.take 3, c.toLower ∈ "ask".toList := by
    intro c hc
    have hmem := List.mem_map_of_mem (f := Char.toLower) hc
    have hfold' : (t2.take 3).map Char.toLower = "ask".toList := hfold
    rwa [hfold'] at hmem
  have hrest' : rest = t2.drop 3 := hrest
  rw [← hrest'] at hsplit
  generalize t2.take 3 = word at hsplit hlen hfolds
  obtain ⟨tick', t3, rfl, htake', htick'⟩ := exists_tick rest
  rw [htake', List.drop_left] at hend
  obtain ⟨o, ho, rfl⟩ := Option.map_eq_some_iff.1 hend
  obtain ⟨blanks', s, rfl, hblank', rfl⟩ := lineEnd_eq_some.1 ho
  -- what no part of the line has
  have hno : ∀ c, isBlank c = false → c.toLower ∉ "ask".toList → c ∉ blanks ∧ c ∉ word ∧ c ∉ blanks' := by
    intro c hc hask
    refine ⟨fun hmem => ?_, fun hmem => hask (hfolds c hmem), fun hmem => ?_⟩
    · exact Bool.false_ne_true (hc.symm.trans (hblank c hmem))
    · exact Bool.false_ne_true (hc.symm.trans (hblank' c hmem))
  obtain ⟨hbrace, hbrace', hbrace''⟩ := hno '\x7b' (by decide) (by decide)
  obtain ⟨hback, hback', hback''⟩ := hno '\x60' (by decide) (by decide)
  have htickLen : tick.count '\x60' ≤ 1 ∧ '\x7b' ∉ tick := by rcases htick with rfl | rfl <;> decide
  have htickLen' : tick'.count '\x60' ≤ 1 ∧ '\x7b' ∉ tick' := by rcases htick' with rfl | rfl <;> decide
  refine ⟨blanks ++ (tick ++ (word ++ (tick' ++ (blanks' ++ ['\n'])))), s, ?_, ?_, ?_, ?_, ?_⟩
  · rw [hblanks, ← hsplit]
    simp only [List.append_assoc, List.singleton_append]
  · simp only [List.length_append, List.length_singleton, List.length_nil]
    omega
  · simp only [List.mem_append, not_or]
    exact ⟨hbrace, htickLen.2, hbrace', htickLen'.2, hbrace'', by decide⟩
  · have hline : List.count '\x60' ['\n'] = 0 := by decide
    simp only [List.count_append, List.count_eq_zero_of_not_mem hback, List.count_eq_zero_of_not_mem hback',
      List.count_eq_zero_of_not_mem hback'', hline]
    omega
  · simp only [List.length_append, List.length_singleton]
    omega

/-- A block that begins with such a line: what stands in front of its first brace. -/
theorem bareOpener_eq_some {pos : Nat} {o : List Char × Nat} (h : bareOpener pos t = some o) :
    (pos = 0 ∨ t.head? = some '\n') ∧
      ∃ a z, t = a ++ '\x7b' :: z ∧ '\x7b' ∉ a ∧ a.count '\x60' ≤ 2 ∧ 2 ≤ a.length := by
  obtain ⟨n, hline, hstarts⟩ := Option.bind_eq_some_iff.1 h
  split_ifs at hstarts with hquestions
  have hhead : (pos = 0 ∨ t.head? = some '\n') ∧
      ∃ a s, t = a ++ s ∧ a.length = n ∧ '\x7b' ∉ a ∧ a.count '\x60' ≤ 2 ∧ 2 ≤ a.length := by
    rcases (Option.orElse_eq_some _ _ _).1 hline with hline | ⟨-, hline⟩
    · split_ifs at hline with hpos
      exact ⟨.inl hpos, askLine_eq_some hline⟩
    · cases t with
      | nil => cases hline
      | cons c t =>
        split at hline
        · next t' heq =>
            obtain ⟨rfl, rfl⟩ := List.cons.inj heq
            obtain ⟨n', hn', rfl⟩ := Option.map_eq_some_iff.1 hline
            obtain ⟨a, s, rfl, rfl, hbrace, hcount, hlen⟩ := askLine_eq_some hn'
            refine ⟨.inr rfl, '\n' :: a, s, rfl, rfl, ?_, ?_, ?_⟩
            · rw [List.mem_cons]
              exact fun hmem => hmem.elim (by decide) hbrace
            · rwa [List.count_cons_of_ne (by decide)]
            · exact hlen.trans (Nat.le_succ _)
        · cases hline
  obtain ⟨hplace, a, s, rfl, rfl, hbrace, hcount, hlen⟩ := hhead
  refine ⟨hplace, ?_⟩
  rw [List.drop_left] at hquestions
  obtain ⟨u, hu⟩ := Option.isSome_iff_exists.1 hquestions
  obtain ⟨v, hv, -⟩ := Option.bind_eq_some_iff.1 hu
  obtain ⟨w, hw, -⟩ := Option.bind_eq_some_iff.1 hv
  obtain ⟨y, hy, -⟩ := Option.bind_eq_some_iff.1 hw
  obtain ⟨hfirst, -⟩ := expect_eq_some hy
  -- only white space stands in front of the brace
  have hspaces := List.takeWhile_append_dropWhile (p := isJsSpace) (l := s)
  have hspace : ∀ c ∈ s.takeWhile isJsSpace, isJsSpace c = true := fun c hc => List.mem_takeWhile_imp hc
  have hskip : s.dropWhile isJsSpace = skip s := rfl
  rw [hskip] at hspaces
  cases hz : skip s with
  | nil =>
    rw [hz] at hfirst
    cases hfirst
  | cons c z =>
    rw [hz] at hfirst hspaces
    have hc : c = '\x7b' := (List.cons.inj hfirst).1
    have hno : ∀ d, isJsSpace d = false → d ∉ s.takeWhile isJsSpace :=
      fun d hd hmem => Bool.false_ne_true (hd.symm.trans (hspace d hmem))
    refine ⟨a ++ s.takeWhile isJsSpace, z, ?_, ?_, ?_, ?_⟩
    · rw [List.append_assoc, ← hc, hspaces]
    · rw [List.mem_append]
      exact fun hmem => hmem.elim hbrace (hno _ (by decide))
    · rw [List.count_append, List.count_eq_zero_of_not_mem (hno _ (by decide))]
      exact hcount
    · rw [List.length_append]
      omega

/-- A text behind the opening line: a brace, and then lines of their own only where no brace is. -/
def Lineless (x : List Char) : Prop := x = [] ∨ ∃ y v, x = '\x7b' :: (y ++ v) ∧ '\n' ∉ y ∧ '\x7b' ∉ v

theorem Lineless.not_mem {x t : List Char} (hx : Lineless x) (ht : t <:+ x) (hhead : t.head? = some '\n') :
    '\x7b' ∉ t := by
  rcases hx with rfl | ⟨y, v, rfl, hy, hv⟩
  · rw [List.suffix_nil.1 ht] at hhead
    cases hhead
  · rw [← List.cons_append] at ht
    rcases List.suffix_or_suffix_of_suffix ht (List.suffix_append ('\x7b' :: y) v) with hin | ⟨u, rfl⟩
    · exact fun hmem => hv (hin.subset hmem)
    · cases u with
      | nil => exact hv
      | cons c u =>
        have hc : c = '\n' := Option.some.inj hhead
        obtain ⟨s, hs⟩ := ht
        rw [← List.append_assoc] at hs
        have hmem : '\n' ∈ '\x7b' :: y := by
          rw [← List.append_cancel_right hs, ← hc]
          exact List.mem_append_right s List.mem_cons_self
        exact absurd hmem (List.not_mem_cons_of_ne_of_not_mem (by decide) hy)

theorem bareOpener_eq_none {before x : List Char} (hbrace : '\x7b' ∉ before) (hx : Lineless x) (i : Nat) :
    bareOpener i ((before ++ (opening ++ x)).drop i) = none := by
  rw [Option.eq_none_iff_forall_ne_some]
  intro o ho
  obtain ⟨hplace, a, z, hsplit, ha, hcount, hlen⟩ := bareOpener_eq_some ho
  rcases Nat.lt_or_ge before.length i with hgt | hle
  · -- in the opening line or behind it
    obtain ⟨k, rfl⟩ : ∃ k, i = before.length + (k + 1) := ⟨i - before.length - 1, by omega⟩
    have hhead := hplace.resolve_left (by omega)
    rw [List.drop_length_add_append] at hsplit hhead
    rcases Nat.lt_trichotomy (k + 1) 6 with hlt | heq | hgt
    · have hword : '\n' ∉ opening.take 6 := by decide
      rw [List.head?_drop, List.getElem?_append_left (hlt.trans (by decide)), ← List.getElem?_take_of_lt hlt] at hhead
      exact hword (List.mem_of_getElem? hhead)
    · rw [heq] at hsplit
      have hline : (opening ++ x).drop 6 = ['\n'] ++ x := rfl
      rw [hline] at hsplit
      rcases hx with rfl | ⟨y, v, rfl, -⟩
      · have hmem : '\x7b' ∈ ['\n'] ++ [] := by
          rw [hsplit]
          exact List.mem_append_right a List.mem_cons_self
        exact absurd hmem (by decide)
      · rw [← (Framing.eq_of_first (by decide) ha hsplit).1] at hlen
        exact absurd hlen (by decide)
    · obtain ⟨j, hj⟩ : ∃ j, k + 1 = opening.length + j := ⟨k + 1 - 7, by rw [show opening.length = 7 from rfl]; omega⟩
      rw [hj, List.drop_length_add_append] at hsplit hhead
      refine hx.not_mem (List.drop_suffix j x) hhead ?_
      rw [hsplit]
      exact List.mem_append_right a List.mem_cons_self
  · have hfront : '\x7b' ∉ before.drop i ++ opening := by
      rw [List.mem_append]
      exact fun hmem => hmem.elim (fun hmem => hbrace (List.mem_of_mem_drop hmem)) (by decide)
    rw [List.drop_append_of_le_length hle, ← List.append_assoc] at hsplit
    rcases hx with rfl | ⟨y, v, rfl, -⟩
    · rw [List.append_nil] at hsplit
      rw [hsplit] at hfront
      exact hfront (List.mem_append_right a List.mem_cons_self)
    · rw [← (Framing.eq_of_first hfront ha hsplit).1, List.count_append] at hcount
      have hthree : opening.count '\x60' = 3 := by decide
      omega

/-- The matches of the expression for a line without fences. -/
def bareBlocks (content : List Char) : List (Nat × Block) :=
  Scan.scan (fun pos => blockAt (bareOpener pos) true) Block.length 0 content

theorem bareBlocks_eq_nil {p : List Char} (h : ∀ i, bareOpener i (p.drop i) = none) : bareBlocks p = [] := by
  refine List.eq_nil_iff_forall_not_mem.2 ?_
  rintro ⟨i, b⟩ hmem
  obtain ⟨-, -, hb⟩ := Scan.mem_scan hmem
  rw [Nat.sub_zero, blockAt, h i] at hb
  cases hb

/-! ## Everything that is read -/

/-- The texts of all candidates, in the order in which they are read. -/
def readTexts (content : List Char) : List (List Char) :=
  ((blocks askOpener true content ++ blocks jsonOpener true content ++ bareBlocks content).map (·.2.body) ++
    [content]).flatMap candidateTexts

theorem collectAll_eq (L : Lowercase) (f : List Char → List AskQ) (content : List Char) :
    let files := fileBounds L content
    collectAll L f content = collected L f files content 0 0 ((bareBlocks content).foldl (collectBlock L f files)
      ((blocks jsonOpener true content).foldl (collectBlock L f files)
        ((blocks askOpener true content).foldl (collectBlock L f files) ⟨content.length, []⟩))) := rfl

theorem fileBounds_opening (L : Lowercase) {before x : List Char} (hbefore : '\x60' ∉ before)
    (hx : ∀ r, Framing.cut fence x = some r → r.2 = []) : fileBounds L (before ++ (opening ++ x)) = [] := by
  have hlabel : (askBlock x).label = "ask".toList := by
    unfold askBlock
    cases Framing.cut fence x <;> rfl
  have hlower : L.lower "ask".toList = "ask".toList := by
    rw [L.ascii _ (by decide)]
    decide
  have hfile : isFile L (askBlock x) = false := by
    rw [isFile, isQuestionsBlock, hlabel, hlower]
    rfl
  rw [fileBounds, blocks_opening (fun _ _ => fileOpener_spec) fileOpener_opening hbefore hx, List.filter_singleton,
    hfile]
  rfl

section Message

variable {before x : List Char} (htick : '\x60' ∉ before) (hbrace : '\x7b' ∉ before) (hx : Lineless x)
  (hjson : Quiet jsonAt x []) (hcut : ∀ r, Framing.cut fence x = some r → r.2 = [])

include htick hbrace hx hjson hcut

theorem blocks_message : blocks askOpener true (before ++ (opening ++ x)) = [(before.length, askBlock x)] ∧
    blocks jsonOpener true (before ++ (opening ++ x)) = [] ∧ bareBlocks (before ++ (opening ++ x)) = [] ∧
    candidateTexts (before ++ (opening ++ x)) = candidateTexts x := by
  refine ⟨blocks_opening (fun _ _ => askOpener_spec) askOpener_opening htick hcut, blocks_of_quiet ?_ true,
    bareBlocks_eq_nil (bareOpener_eq_none hbrace hx), ?_⟩
  · have hopening : Quiet jsonAt opening (x ++ []) := by
      rw [List.append_nil]
      exact quiet_json_opening x
    exact Quiet.append (quiet_of_not_mem starts_jsonAt htick) (hopening.append hjson)
  · have hopening : Quiet candidateAt opening x := quiet_of_not_mem starts_candidateAt (by decide)
    rw [candidateTexts_append (quiet_of_not_mem starts_candidateAt hbrace), candidateTexts_append hopening]

theorem readTexts_message :
    readTexts (before ++ (opening ++ x)) = candidateTexts (askBlock x).body ++ candidateTexts x := by
  obtain ⟨hask, hblocks, hbare, htexts⟩ := blocks_message htick hbrace hx hjson hcut
  rw [readTexts, hask, hblocks, hbare]
  show candidateTexts (askBlock x).body ++ (candidateTexts (before ++ (opening ++ x)) ++ []) = _
  rw [htexts, List.append_nil]

theorem questions_message (L : Lowercase) (f : List Char → List AskQ) :
    (collectAll L f (before ++ (opening ++ x))).questions =
      (asked f (askBlock x).body ++ asked f x).foldl (keep L) [] := by
  obtain ⟨hask, hblocks, hbare, htexts⟩ := blocks_message htick hbrace hx hjson hcut
  have hasked : asked f (before ++ (opening ++ x)) = asked f x := congrArg (List.flatMap f) htexts
  rw [collectAll_eq, fileBounds_opening L htick hcut, hask, hblocks, hbare]
  simp only [List.foldl_cons, List.foldl_nil]
  rw [questions_collected, questions_collectBlock, hasked, List.foldl_append]
  rfl

end Message

theorem nothing_asked (L : Lowercase) (f : List Char → List AskQ) {p : List Char} (hp : '\x7b' ∉ p) :
    readTexts p = [] ∧ parseAsk L f p = none := by
  have hpart : ∀ {opener : Nat → List Char → Option (List Char × Nat)} {q : Nat} {b : Block},
      (q, b) ∈ Scan.scan (fun pos => blockAt (opener pos) true) Block.length 0 p → candidateTexts b.body = [] := by
    intro opener q b hmem
    obtain ⟨-, -, hb⟩ := Scan.mem_scan hmem
    refine candidateTexts_of_not_mem fun hbrace => hp ?_
    rcases (blockAt_eq_some.1 hb).2 with ⟨-, rest, hcut⟩ | ⟨-, -, -, hbody⟩
    · have hmem' : '\x7b' ∈ ((p.drop (q - 0)).drop b.head) := by
        rw [Framing.eq_of_cut hcut]
        exact List.mem_append_left _ (List.mem_append_left _ hbrace)
      exact List.mem_of_mem_drop (List.mem_of_mem_drop hmem')
    · rw [hbody] at hbrace
      exact List.mem_of_mem_drop (List.mem_of_mem_drop hbrace)
  have hask : ∀ m ∈ blocks askOpener true p, candidateTexts m.2.body = [] := fun m hm => hpart hm
  have hblocks : ∀ m ∈ blocks jsonOpener true p, candidateTexts m.2.body = [] := fun m hm => hpart hm
  have hbare : ∀ m ∈ bareBlocks p, candidateTexts m.2.body = [] := fun m hm => hpart hm
  have hall := candidateTexts_of_not_mem hp
  refine ⟨?_, if_pos ?_⟩
  · refine List.flatMap_eq_nil_iff.2 fun t ht => ?_
    rcases List.mem_append.1 ht with ht | ht
    · obtain ⟨m, hm, rfl⟩ := List.mem_map.1 ht
      rcases List.mem_append.1 hm with hm | hm
      · exact (List.mem_append.1 hm).elim (hask m) (hblocks m)
      · exact hbare m hm
    · rw [List.mem_singleton.1 ht, hall]
  · rw [collectAll_eq, found_collected L f hall, found_foldl_collectBlock L f hbare, found_foldl_collectBlock L f hblocks,
      found_foldl_collectBlock L f hask]

/-! ## The lines of a questionnaire -/

theorem mem_commaSeparated {c : Char} {xs : List (List Char)} (h : c ∈ commaSeparated xs) :
    c = ',' ∨ ∃ x ∈ xs, c ∈ x := by
  cases xs with
  | nil => cases h
  | cons x xs =>
    rcases List.mem_append.1 h with h | h
    · exact .inr ⟨x, List.mem_cons_self, h⟩
    · obtain ⟨y, hy, hmem⟩ := List.mem_flatMap.1 h
      exact (List.mem_cons.1 hmem).imp id fun hmem => ⟨y, List.mem_cons_of_mem x hy, hmem⟩

section Lines

variable (hspell : ∀ c, WrittenChar c (spell c))

include hspell

theorem line_not_mem_literal (s : List Char) : '\n' ∉ literal spell s := by
  intro hmem
  have hbody : '\n' ∈ s.flatMap spell := by
    rcases List.mem_cons.1 hmem with h | h
    · exact absurd h (by decide)
    · exact (List.mem_append.1 h).resolve_right (by decide)
  obtain ⟨c, -, hc⟩ := List.mem_flatMap.1 hbody
  -- only as itself, but it is a control character
  obtain ⟨hself, rfl⟩ := written_of_mem (hspell c) hc (by decide)
  have hwritten := hspell '\n'
  rw [hself] at hwritten
  cases hwritten with
  | plain _ _ hcontrol => exact absurd hcontrol (by decide)

theorem line_not_mem_envelope (qs : List AskQ) : '\n' ∉ envelope spell qs := by
  have hitems : ∀ os : List (List Char), '\n' ∉ commaSeparated (os.map (literal spell)) := by
    intro os hmem
    rcases mem_commaSeparated hmem with h | ⟨x, hx, hmem⟩
    · exact absurd h (by decide)
    · obtain ⟨o, -, rfl⟩ := List.mem_map.1 hx
      exact line_not_mem_literal hspell o hmem
  have hobject : ∀ q, '\n' ∉ objectText spell q := by
    intro q
    unfold objectText fieldsText
    simp only [List.mem_cons, List.mem_append, not_or]
    exact ⟨by decide, ⟨by decide, line_not_mem_literal hspell _, by decide, hitems _, by decide, List.not_mem_nil⟩,
      by decide, List.not_mem_nil⟩
  unfold envelope upTo
  simp only [List.mem_cons, List.mem_append, not_or]
  refine ⟨by decide, ⟨by decide, fun hmem => ?_⟩, by decide⟩
  rcases mem_commaSeparated hmem with h | ⟨x, hx, hmem⟩
  · exact absurd h (by decide)
  · obtain ⟨q, -, rfl⟩ := List.mem_map.1 hx
    exact hobject q hmem

theorem lineless_begun {qs : List AskQ} {x : List Char} (hx : x <+: envelope spell qs) : Lineless x := by
  have hline := line_not_mem_envelope hspell qs
  rcases List.prefix_cons_iff.1 hx with rfl | ⟨y, rfl, hy⟩
  · exact .inl rfl
  · refine .inr ⟨y, [], by rw [List.append_nil], fun hmem => ?_, List.not_mem_nil⟩
    exact hline (List.mem_cons_of_mem _ (hy.subset hmem))

theorem lineless_whole {v : List Char} (hv : '\x7b' ∉ v) (qs : List AskQ) : Lineless (envelope spell qs ++ v) :=
  .inr ⟨upTo spell qs ++ "]\x7d".toList, v, rfl,
    fun hmem => line_not_mem_envelope hspell qs (List.mem_cons_of_mem _ hmem), hv⟩

end Lines

/-! ## What is asked -/

theorem CutAt.done_isPrefix {qs done : List AskQ} {x : List Char} (h : CutAt spell qs x done) : done <+: qs := by
  cases h with
  | head _ => exact List.nil_prefix
  | behind hqs _ _ => exact hqs ▸ List.prefix_append _ _
  | inside hqs _ => exact hqs ▸ List.prefix_append _ _
  | whole _ => exact List.prefix_rfl

theorem foldl_keep (L : Lowercase) {qs done rest first first' : List AskQ} {x x' : List Char}
    (hkeys : (done.map AskQ.trimmed).Pairwise fun q q' => L.lower q.question ≠ L.lower q'.question)
    (hle : done.length ≤ maxAskQuestions) (h : Stream spell qs x done first rest)
    (h' : Stream spell qs x' done first' rest) :
    ∃ kept, (asked readOf x ++ asked readOf x').foldl (keep L) [] = done.map AskQ.trimmed ++ kept ∧
      kept <+: rest ∧ (done = [] → kept = rest) := by
  obtain ⟨more, hmore, hsubset⟩ : ∃ more, asked readOf x ++ asked readOf x' = (done.map AskQ.trimmed ++ rest) ++ more ∧
      more ⊆ done.map AskQ.trimmed ++ rest := by
    have hfirst : ∀ {first}, (first = [] ∧ rest = []) ∨ first = done.map AskQ.trimmed ++ rest →
        first ⊆ done.map AskQ.trimmed ++ rest := by
      rintro first (⟨rfl, -⟩ | rfl)
      · exact List.nil_subset _
      · exact List.Subset.refl _
    have hx' : asked readOf x' ⊆ done.map AskQ.trimmed ++ rest := by
      rw [asked, h'.asked]
      exact List.append_subset.2 ⟨hfirst h'.first_eq, List.Subset.refl _⟩
    rcases h.first_eq with ⟨hnil, -⟩ | hall
    · exact ⟨asked readOf x', by rw [asked, h.asked, hnil, List.nil_append], hx'⟩
    · refine ⟨(done.map AskQ.trimmed ++ rest) ++ asked readOf x', ?_, List.append_subset.2 ⟨List.Subset.refl _, hx'⟩⟩
      rw [asked, h.asked, hall, List.append_assoc]
  have hdone : (done.map AskQ.trimmed).foldl (keep L) [] = done.map AskQ.trimmed :=
    Collect.foldl_distinct hkeys (by rw [List.length_map]; exact hle)
  have hfold : (asked readOf x ++ asked readOf x').foldl (keep L) [] = rest.foldl (keep L) (done.map AskQ.trimmed) := by
    rw [hmore]
    refine (Collect.foldl_append_of_subset hsubset []).trans ?_
    rw [List.foldl_append]
    exact congrArg (fun kept => rest.foldl (keep L) kept) hdone
  rw [hfold]
  rcases rest with _ | ⟨r, _ | ⟨r', rest⟩⟩
  · exact ⟨[], (List.append_nil _).symm, List.nil_prefix, fun _ => rfl⟩
  · obtain ⟨kept, hkept, hadd⟩ :=
      @Collect.add_eq _ _ (fun q : AskQ => L.lower q.question) maxAskQuestions _ (done.map AskQ.trimmed) r
    refine ⟨kept, hadd, hkept, ?_⟩
    rintro rfl
    exact hadd.symm
  · exact absurd h.length_le (by simp)

/-- The questions that `parseAsk` returns, if it returns any. -/
def questionsIn (L : Lowercase) (p : List Char) : List AskQ :=
  ((parseAsk L readOf p).map fun r => r.1.map (·.question)).getD []

theorem parseAsk_eq_none_iff (L : Lowercase) (f : List Char → List AskQ) (p : List Char) :
    parseAsk L f p = none ↔ (collectAll L f p).questions = [] := by
  rw [Collected.questions, List.map_eq_nil_iff]
  unfold parseAsk
  dsimp only
  split_ifs with hfound
  · exact ⟨fun _ => hfound, fun _ => rfl⟩
  · exact ⟨fun hnone => hnone.elim, fun hnil => absurd hnil hfound⟩

theorem questionsIn_eq (L : Lowercase) (p : List Char) : questionsIn L p = (collectAll L readOf p).questions := by
  cases hp : parseAsk L readOf p with
  | none => rw [questionsIn, hp, (parseAsk_eq_none_iff L readOf p).1 hp, Option.map_none, Option.getD_none]
  | some r =>
    rw [questionsIn, hp]
    unfold parseAsk at hp
    dsimp only at hp
    split_ifs at hp
    rw [← Option.some.inj hp]
    rfl

/-- The object behind the complete ones is being written, and asks these questions by itself. -/
def Salvaged (spell : Char → List Char) (qs done : List AskQ) (p : List Char) (rest : List AskQ) : Prop :=
  ∃ q behind u, qs = done ++ q :: behind ∧ u <+: fieldsText spell q ∧ '\x7b' :: u <:+ p ∧
    questionsOf ('\x7b' :: u) = some rest

/-- What `parseAsk` makes of a text that begins with `start` and the questionnaire: it does not
throw, the complete questions come first and in order, and at most one more is salvaged. -/
structure KeepsQuestions (L : Lowercase) (spell : Char → List Char) (start : List Char) (qs : List AskQ)
    (p : List Char) : Prop where
  reads : ∀ t ∈ readTexts p, questionsOf t ≠ none
  asks : ∃ rest, questionsIn L p = (completeIn spell start qs p).map AskQ.trimmed ++ rest ∧ rest.length ≤ 1 ∧
    (rest = [] ∨ Salvaged spell qs (completeIn spell start qs p) p rest)
  none_of : completeIn spell start qs p = [] → (∀ r, ¬ Salvaged spell qs [] p [r]) → parseAsk L readOf p = none

section Kept

variable {L : Lowercase} {qs done rest first first' : List AskQ} {before x : List Char}

theorem keepsQuestions_of_streams (htick : '\x60' ∉ before) (hbrace : '\x7b' ∉ before) (hx : Lineless x)
    (hjson : Quiet jsonAt x []) (hcut : ∀ r, Framing.cut fence x = some r → r.2 = [])
    (hkeys : qs.Pairwise fun q q' => L.lower (trim q.question) ≠ L.lower (trim q'.question))
    (hle : qs.length ≤ maxAskQuestions) (hdone : CutAt spell qs x done)
    (hbody : Stream spell qs (askBlock x).body done first rest) (htext : Stream spell qs x done first' rest) :
    KeepsQuestions L spell (before ++ opening) qs (before ++ (opening ++ x)) := by
  have hcomplete : completeIn spell (before ++ opening) qs (before ++ (opening ++ x)) = done := by
    rw [← List.append_assoc]
    exact hdone.completeIn_eq (before ++ opening)
  have hdistinct : (done.map AskQ.trimmed).Pairwise fun q q' => L.lower q.question ≠ L.lower q'.question :=
    List.pairwise_map.2 (hkeys.sublist hdone.done_isPrefix.sublist)
  obtain ⟨kept, hkept, hprefix, hnil⟩ :=
    foldl_keep L hdistinct (hdone.done_isPrefix.length_le.trans hle) hbody htext
  have hquestions := questions_message htick hbrace hx hjson hcut L readOf
  rw [hkept] at hquestions
  have hsalvaged : rest ≠ [] → Salvaged spell qs done (before ++ (opening ++ x)) rest := by
    intro hne
    obtain ⟨q, behind, u, hqs, hu, hsuffix, hread⟩ := htext.left hne
    refine ⟨q, behind, u, hqs, hu, hsuffix.trans ?_, hread⟩
    rw [← List.append_assoc]
    exact List.suffix_append _ x
  refine ⟨?_, ⟨kept, ?_, hprefix.length_le.trans htext.length_le, ?_⟩, ?_⟩
  · rw [readTexts_message htick hbrace hx hjson hcut]
    exact fun t ht => (List.mem_append.1 ht).elim (hbody.reads t) (htext.reads t)
  · rw [questionsIn_eq, hquestions, hcomplete]
  · rw [hcomplete]
    rcases eq_or_ne kept [] with hnone | hsome
    · exact .inl hnone
    · -- it is the whole rest, which is one question
      have hrest : rest ≠ [] := fun hrest => hsome (List.prefix_nil.1 (hrest ▸ hprefix))
      have hlen := List.length_pos_iff.2 hsome
      have hsame : kept = rest := hprefix.eq_of_length_le (htext.length_le.trans hlen)
      rw [hsame]
      exact .inr (hsalvaged hrest)
  · rw [hcomplete]
    rintro rfl hno
    rw [parseAsk_eq_none_iff, hquestions, hnil rfl, List.map_nil, List.nil_append]
    rcases rest with _ | ⟨r, _ | ⟨r', rest⟩⟩
    · rfl
    · exact absurd (hsalvaged (List.cons_ne_nil r [])) (hno r)
    · exact absurd htext.length_le (by simp)

end Kept

/-- Wherever a message with a questionnaire is cut, the questions that are complete are
returned. -/
theorem parseAsk_prefix (L : Lowercase) (hspell : ∀ c, WrittenChar c (spell c)) {before w p : List Char}
    {qs : List AskQ} (htick : '\x60' ∉ before) (hbrace : '\x7b' ∉ before) (hne : qs ≠ [])
    (hle : qs.length ≤ maxAskQuestions) (hqs : ∀ q ∈ qs, q.Fits ∧ q.Unfenced)
    (hkeys : qs.Pairwise fun q q' => L.lower (trim q.question) ≠ L.lower (trim q'.question)) (hw : w ∈ closings)
    (hp : p <+: before ++ (opening ++ (envelope spell qs ++ w))) :
    KeepsQuestions L spell (before ++ opening) qs p := by
  have hfits : ∀ q ∈ qs, q.Fits := fun q hq => (hqs q hq).1
  have hfence := quiet_envelope_fence hspell fun q hq => (hqs q hq).2
  rw [← List.append_assoc] at hp
  rcases prefix_append_cases hp with hp | ⟨x, rfl, hx⟩
  · -- the questionnaire has not begun
    have hfront : '\x7b' ∉ before ++ opening := by
      rw [List.mem_append]
      exact fun hmem => hmem.elim hbrace (by decide)
    have hno : '\x7b' ∉ p := fun hmem => hfront (hp.subset hmem)
    obtain ⟨hreads, hnone⟩ := nothing_asked L readOf hno
    have hcomplete : completeIn spell (before ++ opening) qs p = [] := by
      refine Ask.completeIn_eq (fun hne => absurd rfl hne) fun q _ _ hpre => hno (hpre.subset ?_)
      exact List.mem_append_right _ List.mem_cons_self
    refine ⟨by rw [hreads]; exact List.forall_mem_nil _, ⟨[], ?_, Nat.zero_le 1, .inl rfl⟩, fun _ _ => hnone⟩
    rw [hcomplete, questionsIn, hnone]
    rfl
  rw [List.append_assoc]
  rcases exists_cutAt_envelope hne hx with ⟨hx, done, hdone⟩ | ⟨v, hv, rfl⟩
  · -- it is cut
    have hquiet : Quiet fenceAt x [] := (hfence []).begun goes_fenceAt hx
    have hcut : Framing.cut fence x = none := by
      have hnone := cut_append_of_quiet hquiet
      rwa [List.append_nil] at hnone
    have hbody : (askBlock x).body = x := by rw [askBlock, hcut]
    obtain ⟨first, rest, hstream⟩ := hdone.stream hspell hfits
    refine keepsQuestions_of_streams htick hbrace (lineless_begun hspell hx) (quiet_json_of_fence hquiet) ?_ hkeys
      hle hdone (by rwa [hbody]) hstream
    rw [hcut]
    exact fun r hr => nomatch hr
  · -- all of it is there
    have hclosing := closing_of_prefix hw hv
    have hcut := cut_append_of_quiet (hfence v)
    have hend : ∀ r, Framing.cut fence (envelope spell qs ++ v) = some r →
        r.2 = [] ∧ ∃ u, '\x7b' ∉ u ∧ r.1 = envelope spell qs ++ u := by
      intro r hr
      rw [hcut] at hr
      obtain ⟨r', hr', rfl⟩ := Option.map_eq_some_iff.1 hr
      obtain ⟨hnil, hu⟩ := hclosing.cut_eq r' hr'
      exact ⟨hnil, r'.1, hu, rfl⟩
    obtain ⟨u, hu, hbody⟩ : ∃ u, '\x7b' ∉ u ∧ (askBlock (envelope spell qs ++ v)).body = envelope spell qs ++ u := by
      unfold askBlock
      cases hr : Framing.cut fence (envelope spell qs ++ v) with
      | none => exact ⟨v, hclosing.brace, rfl⟩
      | some r => exact (hend r hr).2
    refine keepsQuestions_of_streams htick hbrace (lineless_whole hspell hclosing.brace qs) ?_
      (fun r hr => (hend r hr).1) hkeys hle (.whole hclosing.brace) (by rw [hbody]; exact stream_whole hspell hfits hu)
      (stream_whole hspell hfits hclosing.brace)
    refine Quiet.append (quiet_json_of_fence ?_) hclosing.json
    rw [List.append_nil]
    exact hfence v

/-- Cut in the second question: the first one is returned, and what is there of the second. -/
theorem parseAsk_prefix_two :
    let qs : List AskQ := [⟨"One?".toList, ["a".toList, "b".toList]⟩, ⟨"Two?".toList, ["c \"d\"".toList]⟩]
    let p := ("Choose:\n".toList ++ (opening ++ (envelope Conversations.escaped qs ++ '\n' :: fence))).take 102
    KeepsQuestions asciiLowercase Conversations.escaped ("Choose:\n".toList ++ opening) qs p ∧
      questionsIn asciiLowercase p = [⟨"One?".toList, ["a".toList, "b".toList]⟩, ⟨"Two?".toList, ["c".toList]⟩] := by
  refine ⟨?_, by decide +kernel⟩
  have hfits : ∀ q ∈ ([⟨"One?".toList, ["a".toList, "b".toList]⟩, ⟨"Two?".toList, ["c \"d\"".toList]⟩] : List AskQ),
      q.Fits ∧ q.Unfenced := by
    rw [List.forall_mem_cons, List.forall_mem_singleton]
    exact ⟨⟨⟨by decide, by decide, by decide, by decide⟩, by decide, by decide⟩,
      ⟨by decide, by decide, by decide, by decide⟩, by decide, by decide⟩
  exact parseAsk_prefix asciiLowercase Conversations.writtenChar_escaped (by decide) (by decide)
    (List.cons_ne_nil _ _) (by decide) hfits (by decide) (w := '\n' :: fence) (by decide) (List.take_prefix _ _)

/-- A question without a text is not asked, even if all of it is there. -/
theorem not_parseAsk_prefix_blank : let qs : List AskQ := [⟨[], ["a".toList]⟩]
    let p := opening ++ envelope Conversations.escaped qs
    (completeIn Conversations.escaped opening qs p = qs ∧ (∀ q ∈ qs, (1 ≤ q.options.length ∧ q.options.length ≤ maxAskOptions) ∧
      (∀ o ∈ q.options, trim o ≠ []) ∧ ¬ fence <:+: q.question ∧ ∀ o ∈ q.options, ¬ fence <:+: o)) ∧
        questionsIn asciiLowercase p = [] := by
  decide +kernel

end Portal.Ask
