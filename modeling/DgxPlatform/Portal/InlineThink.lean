import DgxPlatform.Portal.Rejoin

/-! # A reasoning written into the answer

`splitInlineThink` takes a reasoning that opens the answer out of it. It is asked anew for all that
has come, at every chunk.
-/

namespace Portal.InlineThink

open Rejoin

def trimStart (t : JsText) : JsText := t.dropWhile isSpace

/-- Where a word first stands, whatever its case. -/
def search (word : JsText) : JsText → Option Nat
  | [] => none
  | c :: t => if startsWith word (c :: t) then some 0 else (search word t).map (· + 1)

def openTag : JsText := units "<think>"

def closeTag : JsText := units "</think>"

/-- `<t(?:h(?:i(?:n(?:k)?)?)?)?` and nothing else. -/
def isCutTag (head : JsText) : Bool := decide (2 ≤ head.length ∧ head.map lowerUnit <+: units "<think")

structure Split where
  thought : JsText
  answer : JsText

def splitInlineThink (raw : JsText) : Split :=
  let head := trimStart raw
  if startsWith openTag head then
    let body := head.drop openTag.length
    match search closeTag body with
    | none => ⟨trim body, []⟩
    | some close => ⟨trim (body.take close), trimStart (body.drop (close + closeTag.length))⟩
  else if isCutTag head then ⟨[], []⟩
  else ⟨[], raw⟩

/-- A reasoning opens the text. -/
def Thinks (raw : JsText) : Prop := startsWith openTag (trimStart raw) = true

/-- What stands behind the reasoning, once it is closed. -/
def behind (raw : JsText) : Option JsText :=
  let body := (trimStart raw).drop openTag.length
  (search closeTag body).map fun close => body.drop (close + closeTag.length)

/-- A lone `<` has been shown of a reasoning. -/
def Flashes (shown raw : JsText) : Prop :=
  trimStart shown = units "<" ∧
    (isCutTag (trimStart raw) = true ∨
      Thinks raw ∧ ∀ t, behind raw = some t → (trimStart t).head? ≠ some 60)

/-! ## Prefixes -/

variable {p r t u word : JsText}

theorem dropWhile_mono {α : Type*} {q : α → Bool} {a b : List α} (h : a <+: b) :
    a.dropWhile q <+: b.dropWhile q := by
  obtain ⟨c, rfl⟩ := h
  rw [List.dropWhile_append]
  split_ifs with hempty
  · rw [List.isEmpty_iff.1 hempty]
    exact List.nil_prefix
  · exact List.prefix_append _ _

theorem trimStart_idem (t : JsText) : trimStart (trimStart t) = trimStart t := List.dropWhile_idempotent _ t

theorem startsWith_iff : startsWith word t = true ↔ (t.take word.length).map lowerUnit = word := decide_eq_true_iff

theorem length_le_of_startsWith (h : startsWith word t = true) : word.length ≤ t.length := by
  have hlen := congrArg List.length (startsWith_iff.1 h)
  rw [List.length_map, List.length_take] at hlen
  omega

/-- A text that is long enough shows whether it starts with a word. -/
theorem startsWith_append (h : word.length ≤ t.length) (u : JsText) :
    startsWith word (t ++ u) = startsWith word t := by
  rw [startsWith, List.take_append_of_le_length h]
  rfl

theorem search_append {k : Nat} (h : search word t = some k) (u : JsText) :
    k + word.length ≤ t.length ∧ search word (t ++ u) = some k := by
  induction t generalizing k with
  | nil => cases h
  | cons c t ih =>
    rw [search] at h
    split_ifs at h with hstart
    · obtain rfl := Option.some.inj h
      have hle := length_le_of_startsWith hstart
      refine ⟨by omega, ?_⟩
      have hstart' : startsWith word (c :: (t ++ u)) = true := by
        rw [← List.cons_append, startsWith_append hle u, hstart]
      rw [List.cons_append, search, if_pos hstart']
    · obtain ⟨k, hk, rfl⟩ := Option.map_eq_some_iff.1 h
      obtain ⟨hle, hsearch⟩ := ih hk
      have hlong : word.length ≤ (c :: t).length := by
        rw [List.length_cons]
        omega
      refine ⟨by rw [List.length_cons]; omega, ?_⟩
      have hstart' : ¬ startsWith word (c :: (t ++ u)) = true := by
        rwa [← List.cons_append, startsWith_append hlong u]
      rw [List.cons_append, search, if_neg hstart', hsearch, Option.map_some]

/-! ## What is shown -/

theorem answer_of_thinks (h : Thinks r) :
    (splitInlineThink r).answer = ((behind r).map trimStart).getD [] := by
  have hopen : startsWith openTag (trimStart r) = true := h
  unfold splitInlineThink behind
  dsimp only
  rw [if_pos hopen]
  cases search closeTag ((trimStart r).drop openTag.length) with
  | none => rfl
  | some close => rfl

theorem answer_of_cut (h : ¬ Thinks r) (hcut : isCutTag (trimStart r) = true) : (splitInlineThink r).answer = [] := by
  have hsplit : splitInlineThink r = ⟨[], []⟩ := (if_neg h).trans (if_pos hcut)
  rw [hsplit]

theorem answer_of_plain (h : ¬ Thinks r) (hcut : ¬ isCutTag (trimStart r) = true) :
    (splitInlineThink r).answer = r := by
  have hsplit : splitInlineThink r = ⟨[], r⟩ := (if_neg h).trans (if_neg hcut)
  rw [hsplit]

/-- Nothing but a lone `<` may stand at the head of a tag and be no cut tag. -/
theorem eq_of_begins_tag {head : JsText} (hne : head ≠ []) (htag : head.map lowerUnit <+: units "<think")
    (hcut : ¬ isCutTag head = true) : head = units "<" := by
  obtain ⟨c, head, rfl⟩ := List.exists_cons_of_ne_nil hne
  have hlen : ¬ 2 ≤ (c :: head).length := fun h => hcut (decide_eq_true ⟨h, htag⟩)
  obtain rfl : head = [] := List.eq_nil_of_length_eq_zero (by rw [List.length_cons] at hlen; omega)
  have hc : lowerUnit c = 60 := (List.cons_prefix_cons.1 htag).1
  unfold lowerUnit at hc
  split_ifs at hc with hup
  · have hcode := congrArg UInt16.toNat hc
    have hlow : 65 ≤ c.toNat := UInt16.le_iff_toNat_le.1 hup.1
    have hhigh : c.toNat ≤ 90 := UInt16.le_iff_toNat_le.1 hup.2
    rw [UInt16.toNat_add] at hcode
    have h32 : (32 : UInt16).toNat = 32 := rfl
    have h60 : (60 : UInt16).toNat = 60 := rfl
    omega
  · rw [hc]
    rfl

/-- What is no tag yet, and begins what opens a reasoning or cuts its tag, is a lone `<`. -/
theorem eq_of_tag_behind {head head' : JsText} (hgrows : head <+: head') (hne : head ≠ [])
    (hopen : ¬ startsWith openTag head = true) (hcut : ¬ isCutTag head = true)
    (htag : startsWith openTag head' = true ∨ isCutTag head' = true) : head = units "<" := by
  obtain ⟨rest, rfl⟩ := hgrows
  refine eq_of_begins_tag hne ?_ hcut
  rcases htag with htag | htag
  · have hshort : head.length < openTag.length := by
      by_contra hle
      rw [startsWith_append (Nat.le_of_not_lt hle)] at htag
      exact hopen htag
    have hword := startsWith_iff.1 htag
    have hlen : head.length ≤ 6 := Nat.le_of_lt_succ hshort
    have hhead : head.map lowerUnit <+: openTag := by
      rw [← hword, List.take_append, List.take_of_length_le hshort.le, List.map_append]
      exact List.prefix_append _ _
    have hshorter : units "<think" <+: openTag := ⟨[62], rfl⟩
    refine List.prefix_of_prefix_length_le hhead hshorter ?_
    rw [List.length_map]
    exact hlen
  · have hlong := (of_decide_eq_true htag).2
    rw [List.map_append] at hlong
    exact (List.prefix_append _ _).trans hlong

theorem singleton_prefix_iff {u : UInt16} : [u] <+: t ↔ t.head? = some u := by
  cases t with
  | nil => simp
  | cons c t => simp [List.cons_prefix_cons, eq_comm]

theorem not_thinks_of_cutTag (h : isCutTag (trimStart r) = true) : ¬ Thinks r := by
  intro hthinks
  have hle := (of_decide_eq_true h).2.length_le
  have hopen := length_le_of_startsWith hthinks
  rw [List.length_map] at hle
  have hcut : (units "<think").length < openTag.length := by decide
  omega

theorem behind_of_search {close : Nat} (h : search closeTag ((trimStart r).drop openTag.length) = some close) :
    behind r = some (((trimStart r).drop openTag.length).drop (close + closeTag.length)) :=
  Option.map_eq_some_iff.2 ⟨close, h, rfl⟩

theorem behind_of_prefix (hgrows : p <+: r) (hp : Thinks p) :
    Thinks r ∧ ∀ t, behind p = some t → ∃ t', behind r = some t' ∧ t <+: t' := by
  obtain ⟨rest, hrest⟩ : trimStart p <+: trimStart r := dropWhile_mono hgrows
  have hlen : openTag.length ≤ (trimStart p).length := length_le_of_startsWith hp
  constructor
  · rw [Thinks, ← hrest, startsWith_append hlen]
    exact hp
  · intro t ht
    obtain ⟨close, hclose, rfl⟩ := Option.map_eq_some_iff.1 ht
    obtain ⟨hle, hsearch⟩ := search_append hclose rest
    have hbody : (trimStart r).drop openTag.length = (trimStart p).drop openTag.length ++ rest := by
      rw [← hrest, List.drop_append_of_le_length hlen]
    rw [← hbody] at hsearch
    refine ⟨_, behind_of_search hsearch, ?_⟩
    rw [hbody, List.drop_append_of_le_length hle]
    exact List.prefix_append _ _

/-- White space at the head aside, what is shown of an answer that is still being written is a
part of the answer, unless it is a lone `<` and the answer opens with a reasoning, or with its cut
tag, and is not another `<` behind the reasoning. -/
theorem answer_grows_iff (hgrows : p <+: r) :
    trimStart (splitInlineThink p).answer <+: trimStart (splitInlineThink r).answer ↔ ¬ Flashes p r := by
  have hheads : trimStart p <+: trimStart r := dropWhile_mono hgrows
  by_cases hp : Thinks p
  · obtain ⟨hr, hbehind⟩ := behind_of_prefix hgrows hp
    have hshown : ¬ Flashes p r := by
      rintro ⟨hlone, -⟩
      rw [Thinks, hlone] at hp
      exact absurd hp (by decide)
    refine iff_of_true ?_ hshown
    rw [answer_of_thinks hp, answer_of_thinks hr]
    cases hrest : behind p with
    | none => exact List.nil_prefix
    | some t =>
        obtain ⟨t', ht', hbody⟩ := hbehind t hrest
        rw [ht']
        exact dropWhile_mono (dropWhile_mono hbody)
  · by_cases hcut : isCutTag (trimStart p) = true
    · have hshown : ¬ Flashes p r := by
        rintro ⟨hlone, -⟩
        rw [hlone] at hcut
        exact absurd hcut (by decide)
      refine iff_of_true ?_ hshown
      rw [answer_of_cut hp hcut]
      exact List.nil_prefix
    · rw [answer_of_plain hp hcut]
      by_cases hblank : trimStart p = []
      · refine iff_of_true (hblank ▸ List.nil_prefix) ?_
        rintro ⟨hlone, -⟩
        rw [hblank] at hlone
        cases hlone
      · by_cases hr : Thinks r
        · have hlone := eq_of_tag_behind hheads hblank hp hcut (.inl hr)
          have hlone' : units "<" = [60] := rfl
          rw [answer_of_thinks hr, hlone, hlone']
          cases hbehind : behind r with
          | none =>
              refine iff_of_false (by decide) (not_not.2 ⟨hlone, .inr ⟨hr, fun t ht => ?_⟩⟩)
              rw [hbehind] at ht
              cases ht
          | some t =>
              rw [Option.map_some, Option.getD_some, trimStart_idem, singleton_prefix_iff]
              constructor
              · rintro hhead ⟨-, htag | ⟨-, hno⟩⟩
                · exact not_thinks_of_cutTag htag hr
                · exact hno t hbehind hhead
              · intro hshown
                by_contra hhead
                refine hshown ⟨hlone, .inr ⟨hr, fun t' ht' => ?_⟩⟩
                rw [← Option.some.inj (hbehind.symm.trans ht')]
                exact hhead
        · by_cases hcut' : isCutTag (trimStart r) = true
          · have hlone := eq_of_tag_behind hheads hblank hp hcut (.inr hcut')
            rw [answer_of_cut hr hcut', hlone]
            exact iff_of_false (by decide) (not_not.2 ⟨hlone, .inl hcut'⟩)
          · rw [answer_of_plain hr hcut']
            refine iff_of_true hheads ?_
            rintro ⟨-, htag | ⟨hthinks, -⟩⟩
            · exact hcut' htag
            · exact hr hthinks

/-- The lone `<` at the start of a reasoning is shown, and then taken back. -/
theorem not_answer_grows_lone :
    units "<" <+: units "<think>Short.</think>Ok" ∧
      ¬ trimStart (splitInlineThink (units "<")).answer <+:
        trimStart (splitInlineThink (units "<think>Short.</think>Ok")).answer := by
  decide +kernel

theorem answer_grows_iff_open :
    units "<th" <+: units "<think>Short.</think>Ok" ∧
      trimStart (splitInlineThink (units "<th")).answer <+:
        trimStart (splitInlineThink (units "<think>Short.</think>Ok")).answer := by
  have hgrows : units "<th" <+: units "<think>Short.</think>Ok" := by decide
  refine ⟨hgrows, (answer_grows_iff hgrows).2 ?_⟩
  rintro ⟨hlone, -⟩
  exact absurd hlone (by decide)

end Portal.InlineThink
