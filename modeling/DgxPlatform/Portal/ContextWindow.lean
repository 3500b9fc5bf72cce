import DgxPlatform.Portal.Launches

/-! # The context a client is told

`effective_ctx`, `ctx_split` and `max_seqs_of` read the same arguments of the engine,
each with defaults of its own: without `--parallel`, llama.cpp has four slots that
share one cache, so each of them addresses the whole context; with it, the context is
divided among the slots. The input is never advertised below 1024 tokens.

The arithmetic is that of an `i64`; no step of it leaves the range (`ctxSplit_checked`).
-/

namespace Portal.ContextWindow

open Launches Text

/-- `max_seqs_of`: the configured concurrent sessions. -/
def maxSeqsOf (args engine : List Char) : Option Int :=
  if engine = "ds4".toList then some 1
  else
    let flag :=
      if engine = "llamacpp".toList then "parallel".toList
      else if engine = "exllamav3".toList then "max-batch-size".toList
      else "max-num-seqs".toList
    match argInt args flag with
    | none => if engine = "llamacpp".toList then some 4 else none
    | some n => some n

/-! ## The arithmetic with its checks -/

/-- The result of an `i64` operation, if it has one. -/
def inI64 (n : Int) : Option Int := if -2 ^ 63 ≤ n ∧ n < 2 ^ 63 then some n else none

def checkedSub (a b : Int) : Option Int := inI64 (a - b)

def checkedDivEuclid (a b : Int) : Option Int := if b = 0 then none else inI64 (a / b)

/-- `sharedCtx`, `none` where a step fails. -/
def sharedCtxChecked (args engine : List Char) : Option (Option Int) :=
  match argInt args (ctxFlag engine) with
  | none => some none
  | some ctx =>
      if engine = "llamacpp".toList then
        let words := splitWhitespace args
        if "--kv-unified".toList ∈ words ∧ "--no-kv-unified".toList ∉ words then some (some ctx)
        else (checkedDivEuclid ctx (((argInt args "parallel".toList).filter (· ≠ 0)).getD 1)).map some
      else some (some ctx)

/-- `effective_ctx`, `none` where a step fails. -/
def effectiveCtxChecked (args engine : List Char) : Option (Option Int) :=
  if engine = "llamacpp".toList then
    match (argInt args "kv-unified-per-slot".toList).filter (0 < ·) with
    | some perSlot => some (some perSlot)
    | none => sharedCtxChecked args engine
  else sharedCtxChecked args engine

/-- The reserve of the output within a slot. -/
def outReserveChecked (args : List Char) (slot : Int) : Option Int :=
  match argInt args "n-predict".toList with
  | some n => if 0 < n ∧ n < slot then some n else (checkedDivEuclid slot 3).map (min 65536)
  | none => (checkedDivEuclid slot 3).map (min 65536)

/-- `ctx_split`, `none` where a step fails. -/
def ctxSplitChecked (args engine : List Char) : Option (Int × Int) :=
  (effectiveCtxChecked args engine).bind fun ctx =>
    let slot := (ctx.filter (· ≠ 0)).getD 32768
    if engine ∈ ["llamacpp".toList, "ds4".toList, "exllamav3".toList] then
      (outReserveChecked args slot).bind fun outReserve =>
        (checkedSub slot outReserve).map fun rest => (max rest 1024, outReserve)
    else (checkedDivEuclid slot 2).map fun half => (slot, min half 262144)

theorem inI64_eq {n : Int} (h : -2 ^ 63 ≤ n) (h' : n < 2 ^ 63) : inI64 n = some n := if_pos ⟨h, h'⟩

theorem argInt_range {args flag : List Char} {n : Int} (h : argInt args flag = some n) :
    0 ≤ n ∧ n < 2 ^ 63 := by
  unfold argInt at h
  obtain ⟨w, -, hw⟩ := Option.bind_eq_some_iff.1 h
  dsimp only at hw
  split at hw
  · next hrange =>
      cases hw
      exact ⟨Int.natCast_nonneg _, by exact_mod_cast hrange.2⟩
  · cases hw

theorem checkedDivEuclid_eq {a b : Int} (ha : 0 ≤ a) (ha' : a < 2 ^ 63) (hb : 0 < b) :
    checkedDivEuclid a b = some (a / b) := by
  have hpos : 0 ≤ a / b := Int.ediv_nonneg ha hb.le
  have hle : a / b ≤ a := Int.ediv_le_self b ha
  unfold checkedDivEuclid
  rw [if_neg (by omega), inI64_eq (by omega) (by omega)]

theorem slots_pos (args : List Char) : 0 < ((argInt args "parallel".toList).filter (· ≠ 0)).getD 1 := by
  cases h : (argInt args "parallel".toList).filter (· ≠ 0) with
  | none => exact Int.one_pos
  | some n =>
    obtain ⟨hn, hne⟩ := Option.filter_eq_some_iff.1 h
    have hrange := argInt_range hn
    have hne' : n ≠ 0 := of_decide_eq_true hne
    rw [Option.getD_some]
    omega

theorem sharedCtx_checked (args engine : List Char) :
    sharedCtxChecked args engine = some (sharedCtx args engine) := by
  unfold sharedCtxChecked sharedCtx
  cases hc : argInt args (ctxFlag engine) with
  | none => rfl
  | some ctx =>
    obtain ⟨hpos, hlt⟩ := argInt_range hc
    dsimp only
    rw [Option.map_some]
    split_ifs with hengine hunified
    · rfl
    · rw [checkedDivEuclid_eq hpos hlt (slots_pos args)]
      rfl
    · rfl

theorem effectiveCtx_checked (args engine : List Char) :
    effectiveCtxChecked args engine = some (effectiveCtx args engine) := by
  unfold effectiveCtxChecked effectiveCtx
  split_ifs
  · cases (argInt args "kv-unified-per-slot".toList).filter (0 < ·) with
    | some perSlot => rfl
    | none => exact sharedCtx_checked args engine
  · exact sharedCtx_checked args engine

theorem sharedCtx_range {args engine : List Char} {n : Int} (h : sharedCtx args engine = some n) :
    0 ≤ n ∧ n < 2 ^ 63 := by
  unfold sharedCtx at h
  obtain ⟨ctx, hc, hn⟩ := Option.map_eq_some_iff.1 h
  obtain ⟨hpos, hlt⟩ := argInt_range hc
  dsimp only at hn
  split_ifs at hn
  · subst hn
    exact ⟨hpos, hlt⟩
  · subst hn
    have hle := Int.ediv_le_self (((argInt args "parallel".toList).filter (· ≠ 0)).getD 1) hpos
    exact ⟨Int.ediv_nonneg hpos (slots_pos args).le, by omega⟩
  · subst hn
    exact ⟨hpos, hlt⟩

theorem effectiveCtx_range {args engine : List Char} {n : Int} (h : effectiveCtx args engine = some n) :
    0 ≤ n ∧ n < 2 ^ 63 := by
  unfold effectiveCtx at h
  split_ifs at h
  · cases hp : (argInt args "kv-unified-per-slot".toList).filter (0 < ·) with
    | some perSlot =>
      rw [hp] at h
      cases h
      exact argInt_range (Option.filter_eq_some_iff.1 hp).1
    | none =>
      rw [hp] at h
      exact sharedCtx_range h
  · exact sharedCtx_range h

theorem slot_range (args engine : List Char) :
    0 < ((effectiveCtx args engine).filter (· ≠ 0)).getD 32768 ∧
      ((effectiveCtx args engine).filter (· ≠ 0)).getD 32768 < 2 ^ 63 := by
  cases h : (effectiveCtx args engine).filter (· ≠ 0) with
  | none => exact ⟨by decide, by decide⟩
  | some n =>
    obtain ⟨hn, hne⟩ := Option.filter_eq_some_iff.1 h
    have hrange := effectiveCtx_range hn
    have hne' : n ≠ 0 := of_decide_eq_true hne
    rw [Option.getD_some]
    omega

theorem ctxSplit_checked (args engine : List Char) :
    ctxSplitChecked args engine = some (ctxSplit args engine) := by
  obtain ⟨hpos, hlt⟩ := slot_range args engine
  unfold ctxSplitChecked ctxSplit
  rw [effectiveCtx_checked, Option.bind_some]
  generalize ((effectiveCtx args engine).filter (· ≠ 0)).getD 32768 = slot at hpos hlt
  dsimp only
  split_ifs
  · have hthird := checkedDivEuclid_eq hpos.le hlt (show (0 : Int) < 3 by decide)
    -- the reserve is between nothing and the slot, so the rest is in range too
    have hsub : ∀ reserve, 0 ≤ reserve → reserve ≤ slot → checkedSub slot reserve = some (slot - reserve) := by
      intro reserve hreserve hle
      exact inI64_eq (by omega) (by omega)
    have hdefault : 0 ≤ min 65536 (slot / 3) ∧ min 65536 (slot / 3) ≤ slot := by omega
    unfold outReserveChecked
    cases argInt args "n-predict".toList with
    | none =>
      dsimp only
      rw [hthird, Option.map_some, Option.bind_some, hsub _ hdefault.1 hdefault.2, Option.map_some]
    | some n =>
      dsimp only
      split_ifs with hn
      · rw [Option.bind_some, hsub n hn.1.le hn.2.le, Option.map_some]
      · rw [hthird, Option.map_some, Option.bind_some, hsub _ hdefault.1 hdefault.2, Option.map_some]
  · rw [checkedDivEuclid_eq hpos.le hlt (by decide), Option.map_some]

/-! ## What fits -/

/-- The engines whose input and output share the context. -/
def SHARED_ENGINES : List (List Char) := ["llamacpp".toList, "ds4".toList, "exllamav3".toList]

/-- Beside the output the context has room for the least input that is advertised. -/
def LeavesInput (args : List Char) (per : Int) : Prop :=
  match argInt args "n-predict".toList with
  | some n => if 0 < n ∧ n < per then n + 1024 ≤ per else 1535 ≤ per
  | none => 1535 ≤ per

/-- The context is divided among the slots: no flag makes them share it. -/
def Divided (args : List Char) : Prop :=
  "--kv-unified".toList ∉ splitWhitespace args ∧ "--kv-unified-per-slot".toList ∉ splitWhitespace args

/-- What the two functions make of a context of `c` tokens fits it. -/
def ContextFits (args engine : List Char) (c : Int) : Prop :=
  ∃ per, effectiveCtx args engine = some per ∧
    0 < (ctxSplit args engine).1 ∧ 0 < (ctxSplit args engine).2 ∧
    (ctxSplit args engine).1 + (ctxSplit args engine).2 ≤ per ∧
    (engine = "llamacpp".toList → Divided args → ∀ slots, maxSeqsOf args engine = some slots → per * slots ≤ c)

theorem argInt_eq_none {args flag : List Char} (h : "--".toList ++ flag ∉ splitWhitespace args) :
    argInt args flag = none := by
  unfold argInt
  dsimp only
  rw [Option.bind_eq_none_iff]
  intro w hw
  have hword : w.1 = "--".toList ++ flag := by simpa using List.find?_some hw
  have hmem := (List.of_mem_zip (List.mem_of_find?_eq_some hw)).1
  rw [hword] at hmem
  exact absurd hmem h

/-- Without the flags of a shared cache a slot has its part of the context. -/
theorem effectiveCtx_divided {args : List Char} {c : Int} (h : Divided args)
    (hc : argInt args (ctxFlag "llamacpp".toList) = some c) :
    effectiveCtx args "llamacpp".toList =
      some (c / ((argInt args "parallel".toList).filter (· ≠ 0)).getD 1) := by
  have hslot : argInt args "kv-unified-per-slot".toList = none := argInt_eq_none h.2
  unfold effectiveCtx sharedCtx
  rw [if_pos rfl, hslot, Option.filter_none, hc, Option.map_some, if_pos rfl]
  dsimp only
  rw [if_neg fun hunified => h.1 hunified.1]

/-- The slots that are reported divide the context, or share it when none is set. -/
theorem divided_fits {args : List Char} {c : Int} (h : Divided args)
    (hc : argInt args (ctxFlag "llamacpp".toList) = some c) :
    (∀ n, argInt args "parallel".toList = some n → maxSeqsOf args "llamacpp".toList = some n ∧
        ∃ per, effectiveCtx args "llamacpp".toList = some per ∧ per * n ≤ c) ∧
      (argInt args "parallel".toList = none → maxSeqsOf args "llamacpp".toList = some 4 ∧
        effectiveCtx args "llamacpp".toList = some c) := by
  have hper := effectiveCtx_divided h hc
  have hcpos := (argInt_range hc).1
  have hflag : maxSeqsOf args "llamacpp".toList =
      match argInt args "parallel".toList with
      | none => some 4
      | some n => some n := by
    unfold maxSeqsOf
    rw [if_neg (by decide)]
    dsimp only
    rw [if_pos rfl]
    cases argInt args "parallel".toList with
    | none => rw [if_pos rfl]
    | some n => rfl
  constructor
  · intro n hn
    rw [hflag, hn]
    refine ⟨rfl, _, hper, ?_⟩
    rw [hn]
    by_cases hzero : n = 0
    · subst hzero
      rw [Int.mul_zero]
      exact hcpos
    · have hkeep : (some n).filter (fun m => decide (m ≠ 0)) = some n :=
        Option.filter_eq_some_iff.2 ⟨rfl, decide_eq_true hzero⟩
      rw [hkeep, Option.getD_some]
      exact Int.ediv_mul_le c hzero
  · intro hnone
    rw [hflag, hper, hnone, Option.filter_none, Option.getD_none, Int.ediv_one]
    exact ⟨rfl, rfl⟩

/-- The input that is advertised, and when it fits with the output. -/
theorem split_fits {args engine : List Char} {per : Int} (hengine : engine ∈ SHARED_ENGINES)
    (hper : effectiveCtx args engine = some per) (hpos : 0 < per) :
    1024 ≤ (ctxSplit args engine).1 ∧
      (0 < (ctxSplit args engine).2 ∧ (ctxSplit args engine).1 + (ctxSplit args engine).2 ≤ per ↔
        LeavesInput args per) := by
  have hslot : ((effectiveCtx args engine).filter (· ≠ 0)).getD 32768 = per := by
    have hne : per ≠ 0 := by omega
    have hkeep : (some per).filter (fun m => decide (m ≠ 0)) = some per :=
      Option.filter_eq_some_iff.2 ⟨rfl, decide_eq_true hne⟩
    rw [hper, hkeep, Option.getD_some]
  unfold ctxSplit LeavesInput
  rw [hslot]
  dsimp only
  unfold SHARED_ENGINES at hengine
  rw [if_pos hengine]
  refine ⟨Int.le_max_right _ _, ?_⟩
  -- the default reserve is a third, up to 65536
  have hreserve : min 65536 (per / 3) = 65536 ∧ 65536 ≤ per / 3 ∨ min 65536 (per / 3) = per / 3 ∧ per / 3 < 65536 := by
    rcases le_or_gt 65536 (per / 3) with hle | hlt
    · exact Or.inl ⟨min_eq_left hle, hle⟩
    · exact Or.inr ⟨min_eq_right hlt.le, hlt⟩
  generalize min 65536 (per / 3) = reserve at hreserve
  cases argInt args "n-predict".toList with
  | none =>
    dsimp only
    omega
  | some n =>
    dsimp only
    split_ifs with hn
    · omega
    · omega

/-- What is advertised of a context: no step of the arithmetic fails; the input
is 1024 tokens at least, and with a positive output within the slot exactly if the slot
leaves it this much; and slots that divide the context do not exceed it, while four slots
share it when none is set. -/
theorem advertised_context (args engine : List Char) (c : Int) (hengine : engine ∈ SHARED_ENGINES)
    (hc : argInt args (ctxFlag engine) = some c) :
    ctxSplitChecked args engine = some (ctxSplit args engine) ∧
    ∃ per, effectiveCtxChecked args engine = some (some per) ∧ effectiveCtx args engine = some per ∧
      (0 < per → 1024 ≤ (ctxSplit args engine).1 ∧
        (0 < (ctxSplit args engine).2 ∧ (ctxSplit args engine).1 + (ctxSplit args engine).2 ≤ per ↔
          LeavesInput args per)) ∧
      (engine = "llamacpp".toList → Divided args →
        (∀ n, argInt args "parallel".toList = some n → maxSeqsOf args engine = some n ∧ per * n ≤ c) ∧
        (argInt args "parallel".toList = none → maxSeqsOf args engine = some 4 ∧ per = c)) := by
  refine ⟨ctxSplit_checked args engine, ?_⟩
  have hsome : ∃ per, effectiveCtx args engine = some per := by
    unfold effectiveCtx sharedCtx
    rw [hc]
    split_ifs
    · cases (argInt args "kv-unified-per-slot".toList).filter (0 < ·) with
      | some perSlot => exact ⟨perSlot, rfl⟩
      | none => exact ⟨_, rfl⟩
    · exact ⟨_, rfl⟩
  obtain ⟨per, hper⟩ := hsome
  refine ⟨per, by rw [effectiveCtx_checked, hper], hper, split_fits hengine hper, ?_⟩
  rintro rfl hdivided
  obtain ⟨hset, hunset⟩ := divided_fits hdivided hc
  constructor
  · intro n hn
    obtain ⟨hseqs, per', hper', hle⟩ := hset n hn
    rw [hper] at hper'
    cases hper'
    exact ⟨hseqs, hle⟩
  · intro hnone
    obtain ⟨hseqs, hper'⟩ := hunset hnone
    rw [hper] at hper'
    cases hper'
    exact ⟨hseqs, rfl⟩

/-! ## Three command lines -/

theorem advertised_context_sample :
    ctxSplitChecked "--ctx-size 8192 --parallel 2 --n-predict 2048".toList "llamacpp".toList = some (2048, 2048) ∧
    ∃ per, effectiveCtxChecked "--ctx-size 8192 --parallel 2 --n-predict 2048".toList "llamacpp".toList =
        some (some per) ∧
      effectiveCtx "--ctx-size 8192 --parallel 2 --n-predict 2048".toList "llamacpp".toList = some per ∧
      per * 2 ≤ 8192 := by
  have hctx : argInt "--ctx-size 8192 --parallel 2 --n-predict 2048".toList (ctxFlag "llamacpp".toList) = some 8192 ∧
      argInt "--ctx-size 8192 --parallel 2 --n-predict 2048".toList "parallel".toList = some 2 ∧
      ctxSplit "--ctx-size 8192 --parallel 2 --n-predict 2048".toList "llamacpp".toList = (2048, 2048) ∧
      "llamacpp".toList ∈ SHARED_ENGINES := by decide +kernel
  have hdivided : Divided "--ctx-size 8192 --parallel 2 --n-predict 2048".toList := by
    unfold Divided
    decide +kernel
  obtain ⟨hsplit, per, hchecked, hper, -, hslots⟩ := advertised_context _ _ _ hctx.2.2.2 hctx.1
  rw [hctx.2.2.1] at hsplit
  exact ⟨hsplit, per, hchecked, hper, ((hslots rfl hdivided).1 2 hctx.2.1).2⟩

/-- Four slots are reported where none is set, and each is told the whole context; and
what is advertised of a small context is more than it. -/
theorem not_context_fits :
    ¬ ContextFits "--ctx-size 8192".toList "llamacpp".toList 8192 ∧
      ¬ ContextFits "--ctx 1024".toList "ds4".toList 1024 := by
  have hvalues : effectiveCtx "--ctx-size 8192".toList "llamacpp".toList = some 8192 ∧
      maxSeqsOf "--ctx-size 8192".toList "llamacpp".toList = some 4 ∧
      effectiveCtx "--ctx 1024".toList "ds4".toList = some 1024 ∧
      ctxSplit "--ctx 1024".toList "ds4".toList = (1024, 341) := by decide +kernel
  have hdivided : Divided "--ctx-size 8192".toList := by
    unfold Divided
    decide +kernel
  constructor
  · rintro ⟨per, hper, -, -, -, hslots⟩
    rw [hvalues.1] at hper
    cases hper
    exact absurd (hslots rfl hdivided 4 hvalues.2.1) (by decide)
  · rintro ⟨per, hper, -, -, hsum, -⟩
    rw [hvalues.2.2.1] at hper
    cases hper
    rw [hvalues.2.2.2] at hsum
    exact absurd hsum (by decide)

end Portal.ContextWindow
