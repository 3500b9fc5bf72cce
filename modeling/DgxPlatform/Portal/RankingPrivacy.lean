import DgxPlatform.Portal.Ranking
import Mathlib.Logic.Equiv.Basic
import Mathlib.Data.Rat.Floor

/-! # Anonymous accounts on the leaderboard

What a viewer who is no administrator learns of another account that chose
anonymity. In the account view its row has no name, and the whole answer is the same
when the account has another name: the answer is equivariant under a renaming of the
accounts (`rankingForViewer_rename`), and an anonymous name is never shown.

In the group view a group of one stands for its member. Its member is the one account
that is counted in it; the code asks instead for the first account of the group table
that has the group, counted or not, and finds none for the accounts without a group.
-/

namespace Portal.Ranking

open Ordered (Map mapKeys)

variable {F : Type} {ar : Arith F} {ρ : String → String}

/-! ## Renaming the accounts -/

def Spend.rename (ρ : String → String) (s : Spend) : Spend :=
  { s with umap := s.umap.map fun p => (p.1, ρ p.2) }

def Tables.rename (ρ : String → String) (t : Tables) : Tables where
  localUsers := t.localUsers.map fun rows => rows.map fun r => (ρ r.1, r.2)
  userSources := t.userSources.map fun rows => rows.map ρ
  directoryGroups := t.directoryGroups.map fun rows => rows.map fun r => (ρ r.1, r.2)
  prefs := t.prefs.map fun p => { p with username := ρ p.username }

/-- The same platform with the accounts renamed. -/
def Inputs.rename (ρ : String → String) (inp : Inputs F) : Inputs F :=
  { inp with
    spend := inp.spend.map (Spend.rename ρ)
    tables := inp.tables.rename ρ
    quotas := mapKeys ρ inp.quotas }

def Row.rename (ρ : String → String) (r : Row F) : Row F :=
  { r with username := r.username.map ρ }

theorem Row.rename_of_fixed {r : Row F} (h : r.username.map ρ = r.username) : r.rename ρ = r := by
  unfold Row.rename
  rw [h]

theorem ownerOf_rename (hunknown : ρ "unknown" = "unknown") (umap : Map String String) (key : Option String) :
    ownerOf (umap.map fun p => (p.1, ρ p.2)) key = (ownerOf umap key).map ρ := by
  cases key with
  | none => simp [ownerOf, hunknown]
  | some k =>
    simp only [ownerOf, Ordered.get?_mapValues]
    split
    · rfl
    · cases Ordered.get? k umap <;> simp [hunknown]

theorem addCurrent_rename (hρ : Function.Injective ρ) (hunknown : ρ "unknown" = "unknown")
    (umap : Map String String) (agg : Map String Agg) (r : CurrentRow) :
    addCurrent (umap.map fun p => (p.1, ρ p.2)) (mapKeys ρ agg) r =
      mapKeys ρ (addCurrent umap agg r) := by
  simp only [addCurrent, ownerOf_rename hunknown]
  cases ownerOf umap r.apiKey with
  | none => rfl
  | some u => exact (Ordered.mapKeys_modify hρ _ _ _ _).symm

theorem addPrevious_rename (hρ : Function.Injective ρ) (hunknown : ρ "unknown" = "unknown")
    (umap : Map String String) (prev : Map String Triple) (r : PreviousRow) :
    addPrevious (umap.map fun p => (p.1, ρ p.2)) (mapKeys ρ prev) r =
      mapKeys ρ (addPrevious umap prev r) := by
  simp only [addPrevious, ownerOf_rename hunknown]
  cases ownerOf umap r.apiKey with
  | none => rfl
  | some u => exact (Ordered.mapKeys_modify hρ _ _ _ _).symm

/-- A fold of steps that commute with a renaming commutes with it. -/
theorem foldl_mapKeys {R V : Type} {f g : Map String V → R → Map String V}
    (h : ∀ m r, g (mapKeys ρ m) r = mapKeys ρ (f m r)) (rows : List R) (m : Map String V) :
    rows.foldl g (mapKeys ρ m) = mapKeys ρ (rows.foldl f m) := by
  induction rows generalizing m with
  | nil => rfl
  | cons r rows ih =>
    simp only [List.foldl_cons, h]
    exact ih (f m r)

theorem byAccount_rename (hρ : Function.Injective ρ) (hunknown : ρ "unknown" = "unknown")
    (s : Spend) (q : Query) : byAccount (s.rename ρ) q = mapKeys ρ (byAccount s q) :=
  foldl_mapKeys (addCurrent_rename hρ hunknown s.umap) _ []

theorem prevByAccount_rename (hρ : Function.Injective ρ) (hunknown : ρ "unknown" = "unknown")
    (s : Spend) (q : Query) : prevByAccount (s.rename ρ) q = mapKeys ρ (prevByAccount s q) := by
  unfold prevByAccount
  split
  · rfl
  · exact foldl_mapKeys (addPrevious_rename hρ hunknown s.umap) _ []

theorem contains_map (hρ : Function.Injective ρ) (xs : List String) (u : String) :
    (xs.map ρ).contains (ρ u) = xs.contains u := by
  rw [Bool.eq_iff_iff]
  simp [hρ.eq_iff]

theorem knownAccounts_rename (t : Tables) :
    (t.rename ρ).knownAccounts = t.knownAccounts.map fun known => known.map ρ := by
  unfold Tables.knownAccounts Tables.rename
  cases t.localUsers <;> cases t.userSources <;> simp

theorem isResidue_rename (hρ : Function.Injective ρ) (hunknown : ρ "unknown" = "unknown")
    (t : Tables) (u : String) : (t.rename ρ).isResidue (ρ u) = t.isResidue u := by
  have hu : (ρ u == "unknown") = (u == "unknown") := by
    rw [Bool.eq_iff_iff, beq_iff_eq, beq_iff_eq]
    exact ⟨fun h => hρ (h.trans hunknown.symm), fun h => by rw [h, hunknown]⟩
  simp only [Tables.isResidue, hu, knownAccounts_rename, Option.any_map,
    contains_map hρ]

theorem anonymousAccounts_rename (t : Tables) : (t.rename ρ).anonymousAccounts = t.anonymousAccounts.map ρ := by
  simp [Tables.anonymousAccounts, Tables.rename, List.filter_map, Function.comp_def]

theorem avatar_rename (hρ : Function.Injective ρ) (t : Tables) (u : String) :
    (t.rename ρ).avatar (ρ u) = t.avatar u := by
  simp [Tables.avatar, Tables.rename, List.find?_map, Function.comp_def, hρ.eq_iff]

/-! ## The board and its rows -/

/-- The second board is the first one with its accounts renamed. -/
structure Board.Renamed (ρ : String → String) (b b' : Board) : Prop where
  agg : b'.agg = mapKeys ρ b.agg
  prev : b'.prev = mapKeys ρ b.prev
  residue : ∀ u, b'.residue (ρ u) = b.residue u

theorem accountBoard_rename (hρ : Function.Injective ρ) (hunknown : ρ "unknown" = "unknown")
    (s : Spend) (t : Tables) (q : Query) :
    (accountBoard s t q).Renamed ρ (accountBoard (s.rename ρ) (t.rename ρ) q) where
  agg := byAccount_rename hρ hunknown s q
  prev := prevByAccount_rename hρ hunknown s q
  residue := isResidue_rename hρ hunknown t

variable {b b' : Board}

theorem ranked_rename (h : b.Renamed ρ b') (q : Query) (residue : Bool) :
    ranked ar q b' residue = mapKeys ρ (ranked ar q b residue) := by
  have hfilter : (b'.agg.filter fun p =>
      ar.gt (ar.tripleValue q.metric p.2.sums) ar.zero && b'.residue p.1 == residue) =
        (b.agg.filter fun p =>
          ar.gt (ar.tripleValue q.metric p.2.sums) ar.zero && b.residue p.1 == residue).map
            fun p => (ρ p.1, p.2) := by
    rw [h.agg, mapKeys, List.filter_map]
    simp only [Function.comp_def, h.residue]
  unfold ranked mapKeys
  rw [hfilter]
  -- the order looks at the figures only
  symm
  apply List.map_mergeSort
  intro p _ p' _
  rfl

theorem mapIdx_map_eq {α β γ δ : Type} {f : α → β} {g : Nat → β → γ} {k : Nat → α → δ} {h : δ → γ}
    {l : List α} (hc : ∀ i, ∀ a ∈ l, g i (f a) = h (k i a)) :
    (l.map f).mapIdx g = (l.mapIdx k).map h := by
  apply List.ext_getElem?
  intro i
  simp only [List.getElem?_mapIdx, List.getElem?_map, Option.map_map, Function.comp_def]
  cases hi : l[i]? with
  | none => rfl
  | some a => simp [hc i a (List.mem_of_getElem? hi)]

theorem totals_mapKeys (m : Map String Agg) : totals (mapKeys ρ m) = totals m := by
  simp [totals, mapKeys, List.foldl_map]

theorem totalAndAvg_rename (h : b.Renamed ρ b') (q : Query) : totalAndAvg ar q b' = totalAndAvg ar q b := by
  unfold totalAndAvg
  rw [h.agg, totals_mapKeys]
  simp only [ranked_rename h, mapKeys, List.map_map, Function.comp_def]

variable {q : Query} {me : String}

theorem line_rename (hρ : Function.Injective ρ) (h : b.Renamed ρ b')
    (hq : q.by_ = .account) (hme : ρ me = me) (sp : Spend) (prices : Prices F)
    (total : F) (rank : Option Nat) (u : String) (a : Agg) :
    line ar (sp.rename ρ) prices q b' me total rank (ρ u) a =
      (line ar sp prices q b me total rank u a).rename ρ := by
  have hisMe : (ρ u == me) = (u == me) := by
    rw [Bool.eq_iff_iff, beq_iff_eq, beq_iff_eq]
    exact ⟨fun hu => hρ (hu.trans hme.symm), fun hu => by rw [hu, hme]⟩
  simp only [line, hq, Row.rename, h.residue, h.prev, Ordered.get?_mapKeys hρ, hisMe,
    Option.map_some, Spend.rename]

theorem boardRows_rename (hρ : Function.Injective ρ) (h : b.Renamed ρ b')
    (hq : q.by_ = .account) (hme : ρ me = me) (sp : Spend) (prices : Prices F) :
    boardRows ar (sp.rename ρ) prices q b' me =
      (boardRows ar sp prices q b me).map (Row.rename ρ) := by
  simp only [boardRows, totalAndAvg_rename h, ranked_rename h, mapKeys, List.map_append,
    List.map_map, Function.comp_def, line_rename hρ h hq hme]
  rw [mapIdx_map_eq fun i p _ => line_rename hρ h hq hme sp prices _ _ p.1 p.2]

variable {row : Row F}

theorem username_boardRows {sp : Spend} {prices : Prices F}
    (h : row ∈ boardRows ar sp prices q b me) : ∃ p ∈ b.agg, row.username = some p.1 := by
  have hranked : ∀ residue, ∀ p ∈ ranked ar q b residue, p ∈ b.agg := by
    intro residue p hp
    exact List.mem_of_mem_filter (List.mem_mergeSort.1 hp)
  rcases List.mem_append.1 h with hact | hres
  · obtain ⟨i, hi, rfl⟩ := List.mem_mapIdx.1 hact
    exact ⟨_, hranked _ _ (List.getElem_mem hi), rfl⟩
  · obtain ⟨p, hp, rfl⟩ := List.mem_map.1 hres
    exact ⟨p, hranked _ _ hp, rfl⟩

/-- The accounts of the spend logs are the owners of the keys, and "unknown". -/
theorem mem_byAccount {s : Spend} {p : String × Agg} (h : p ∈ byAccount s q) :
    p.1 = "unknown" ∨ ∃ k, (k, p.1) ∈ s.umap := by
  have howner : ∀ key u, ownerOf s.umap key = some u → u = "unknown" ∨ ∃ k, (k, u) ∈ s.umap := by
    intro key u hu
    cases key with
    | none =>
      cases hu
      exact Or.inl rfl
    | some k =>
      simp only [ownerOf] at hu
      split at hu
      · cases hu
      · cases hk : Ordered.get? k s.umap with
        | none =>
          rw [hk] at hu
          cases hu
          exact Or.inl rfl
        | some x =>
          rw [hk] at hu
          cases hu
          exact Or.inr ⟨k, Ordered.mem_of_get? hk⟩
  have hfold : ∀ (rows : List CurrentRow) (m : Map String Agg),
      (∀ p ∈ m, p.1 = "unknown" ∨ ∃ k, (k, p.1) ∈ s.umap) →
      ∀ p ∈ rows.foldl (addCurrent s.umap) m, p.1 = "unknown" ∨ ∃ k, (k, p.1) ∈ s.umap := by
    intro rows
    induction rows with
    | nil => exact fun m hm => hm
    | cons r rows ih =>
      intro m hm
      refine ih _ ?_
      intro p hp
      simp only [addCurrent] at hp
      split at hp
      · next u hu =>
          rcases Ordered.mem_keys_modify hp with hk | ⟨v, hv⟩
          · rw [hk]
            exact howner _ _ hu
          · exact hm (p.1, v) hv
      · exact hm p hp
  exact hfold _ [] (by simp) p h

/-! ## The account view -/

theorem veilAccount_rename (hρ : Function.Injective ρ) (hme : ρ me = me)
    (t : Tables) (quotas quotas' : Map String (Option F)) (n : Nat) {u : String}
    (hu : row.username = some u) :
    veilAccount (t.rename ρ) quotas' me false n (row.rename ρ) =
      (veilAccount t quotas me false n row).rename ρ := by
  have hne : (ρ u != me) = (u != me) := by
    rw [Bool.eq_iff_iff, bne_iff_ne, bne_iff_ne]
    exact not_congr ⟨fun h => hρ (h.trans hme.symm), fun h => by rw [h, hme]⟩
  simp only [veilAccount, Row.rename, hu, Option.map_some, Option.getD_some,
    anonymousAccounts_rename, contains_map hρ, avatar_rename hρ, hne]
  congr 1
  split <;> rfl

theorem rankingFull_rename (hρ : Function.Injective ρ) (hunknown : ρ "unknown" = "unknown")
    (hme : ρ me = me) (inp : Inputs F) (hq : q.by_ = .account) :
    rankingFull ar (inp.rename ρ) q me =
      { rankingFull ar inp q me with
        rows := (rankingFull ar inp q me).rows.map (Row.rename ρ) } := by
  cases hsp : inp.spend with
  | none => simp [rankingFull, Inputs.rename, hsp]
  | some sp =>
    have hb := accountBoard_rename hρ hunknown sp inp.tables q
    simp only [rankingFull, Inputs.rename, hsp, Option.map_some, board, hq,
      boardRows_rename hρ hb hq hme, totalAndAvg_rename hb, ranked_rename hb, hb.agg,
      totals_mapKeys]
    simp [mapKeys, seenModels, Spend.rename]

variable {inp : Inputs F}

/-- Every row of `ranking_full` has the name of an account that the logs know. -/
theorem username_rankingFull (hq : q.by_ = .account) (h : row ∈ (rankingFull ar inp q me).rows) :
    ∃ u sp, row.username = some u ∧ inp.spend = some sp ∧
      (u = "unknown" ∨ ∃ k, (k, u) ∈ sp.umap) := by
  cases hsp : inp.spend with
  | none => simp [rankingFull, hsp] at h
  | some sp =>
    simp only [rankingFull, hsp, board, hq] at h
    obtain ⟨p, hp, hu⟩ := username_boardRows h
    exact ⟨p.1, sp, hu, rfl, mem_byAccount hp⟩

/-- The account view of a renamed platform is the same one with the names that are shown
renamed. -/
theorem rankingForViewer_rename (hρ : Function.Injective ρ) (hunknown : ρ "unknown" = "unknown")
    (hme : ρ me = me) (inp : Inputs F) (hq : q.by_ = .account) :
    rankingForViewer ar (inp.rename ρ) q me false =
      { rankingForViewer ar inp q me false with
        rows := (rankingForViewer ar inp q me false).rows.map (Row.rename ρ) } := by
  have hanon : (inp.rename ρ).tables.anonymousAccounts.contains me =
      inp.tables.anonymousAccounts.contains me := by
    have hc := contains_map hρ inp.tables.anonymousAccounts me
    rwa [hme, ← anonymousAccounts_rename] at hc
  have hveil : ((rankingFull ar inp q me).rows.map (Row.rename ρ)).mapIdx
      (veilAccount (inp.rename ρ).tables (inp.rename ρ).quotas me false) =
        ((rankingFull ar inp q me).rows.mapIdx
          (veilAccount inp.tables inp.quotas me false)).map (Row.rename ρ) := by
    refine mapIdx_map_eq fun n row hrow => ?_
    obtain ⟨u, -, hu, -⟩ := username_rankingFull hq hrow
    exact veilAccount_rename hρ hme inp.tables _ _ n hu
  simp only [rankingForViewer, rankingFull_rename hρ hunknown hme inp hq, hq, hveil, hanon]

/-- In the account view no row names an anonymous account to another one. -/
theorem username_account_ne (hq : q.by_ = .account) {u v : String}
    (hu : u ∈ inp.tables.anonymousAccounts) (huv : u ≠ v)
    (h : row ∈ (rankingForViewer ar inp q v false).rows) : row.username ≠ some u := by
  simp only [rankingForViewer, hq] at h
  obtain ⟨n, hn, rfl⟩ := List.mem_mapIdx.1 h
  intro hname
  simp only [veilAccount] at hname
  split at hname
  · cases hname
  · next hshown =>
      rw [hname] at hshown
      simp [hu, huv] at hshown

/-- A name that is shown in the account view is one of `ranking_full`. -/
theorem username_of_shown (hq : q.by_ = .account) {me x : String}
    (h : row ∈ (rankingForViewer ar inp q me false).rows)
    (hx : row.username = some x) :
    ∃ row₀ ∈ (rankingFull ar inp q me).rows, row₀.username = some x := by
  simp only [rankingForViewer, hq] at h
  obtain ⟨n, hn, rfl⟩ := List.mem_mapIdx.1 h
  refine ⟨_, List.getElem_mem hn, ?_⟩
  simp only [veilAccount] at hx
  split at hx
  · cases hx
  · exact hx

/-- A name that nobody has. -/
structure Fresh (inp : Inputs F) (w : String) : Prop where
  umap : ∀ sp ∈ inp.spend, ∀ p ∈ sp.umap, p.2 ≠ w
  localUsers : ∀ rows ∈ inp.tables.localUsers, ∀ r ∈ rows, r.1 ≠ w
  userSources : ∀ rows ∈ inp.tables.userSources, w ∉ rows
  directoryGroups : ∀ rows ∈ inp.tables.directoryGroups, ∀ r ∈ rows, r.1 ≠ w
  prefs : ∀ p ∈ inp.tables.prefs, p.username ≠ w
  quotas : ∀ p ∈ inp.quotas, p.1 ≠ w
  reserved : w ≠ "unknown"

/-- The account `u` has the name `w` instead. -/
def renameTo (u w : String) (x : String) : String := if x = u then w else x

theorem renameTo_eq_swap {u w x : String} (hx : x ≠ w) : renameTo u w x = Equiv.swap u w x := by
  unfold renameTo
  split
  · next hxu => rw [hxu, Equiv.swap_apply_left]
  · next hxu => rw [Equiv.swap_apply_of_ne_of_ne hxu hx]

theorem rename_eq_swap {u w : String} (h : Fresh inp w) :
    inp.rename (renameTo u w) = inp.rename (Equiv.swap u w) := by
  have hspend : inp.spend.map (Spend.rename (renameTo u w)) =
      inp.spend.map (Spend.rename (Equiv.swap u w)) := by
    refine Option.map_congr fun sp hsp => ?_
    have humap := List.map_congr_left (f := fun p => (p.1, renameTo u w p.2))
      (g := fun p => (p.1, Equiv.swap u w p.2)) (l := sp.umap)
      fun p hp => by rw [renameTo_eq_swap (h.umap sp hsp p hp)]
    simp only [Spend.rename, humap]
  have hlocal : inp.tables.localUsers.map (fun rows => rows.map fun r => (renameTo u w r.1, r.2)) =
      inp.tables.localUsers.map fun rows => rows.map fun r => (Equiv.swap u w r.1, r.2) :=
    Option.map_congr fun rows hrows => List.map_congr_left fun r hr => by
      rw [renameTo_eq_swap (h.localUsers rows hrows r hr)]
  have hsources : inp.tables.userSources.map (fun rows => rows.map (renameTo u w)) =
      inp.tables.userSources.map fun rows => rows.map (Equiv.swap u w) :=
    Option.map_congr fun rows hrows => List.map_congr_left fun r hr =>
      renameTo_eq_swap fun he => h.userSources rows hrows (he ▸ hr)
  have hdirectory : inp.tables.directoryGroups.map
      (fun rows => rows.map fun r => (renameTo u w r.1, r.2)) =
        inp.tables.directoryGroups.map fun rows => rows.map fun r => (Equiv.swap u w r.1, r.2) :=
    Option.map_congr fun rows hrows => List.map_congr_left fun r hr => by
      rw [renameTo_eq_swap (h.directoryGroups rows hrows r hr)]
  have hprefs : inp.tables.prefs.map (fun p => { p with username := renameTo u w p.username }) =
      inp.tables.prefs.map fun p => { p with username := Equiv.swap u w p.username } :=
    List.map_congr_left fun p hp => by rw [renameTo_eq_swap (h.prefs p hp)]
  have hquotas : mapKeys (renameTo u w) inp.quotas = mapKeys (Equiv.swap u w) inp.quotas :=
    List.map_congr_left fun p hp => by rw [renameTo_eq_swap (h.quotas p hp)]
  simp only [Inputs.rename, Tables.rename, hspend, hlocal, hsources, hdirectory, hprefs, hquotas]

/-- The account view does not depend on the name of an anonymous account. -/
theorem rankingForViewer_renameTo (hq : q.by_ = .account)
    {u v w : String} (hu : u ∈ inp.tables.anonymousAccounts) (huv : u ≠ v)
    (hunknown : u ≠ "unknown") (hw : Fresh inp w) (hwv : w ≠ v) :
    rankingForViewer ar (inp.rename (renameTo u w)) q v false =
      rankingForViewer ar inp q v false := by
  rw [rename_eq_swap hw, rankingForViewer_rename (Equiv.swap u w).injective
    (Equiv.swap_apply_of_ne_of_ne hunknown.symm hw.reserved.symm)
    (Equiv.swap_apply_of_ne_of_ne huv.symm hwv.symm) inp hq]
  -- the names that are shown are neither the hidden one nor the fresh one
  have hsame : ∀ row ∈ (rankingForViewer ar inp q v false).rows,
      row.rename (Equiv.swap u w) = row := by
    intro row hrow
    apply Row.rename_of_fixed
    cases hname : row.username with
    | none => rfl
    | some x =>
      have hxu : x ≠ u := fun he => username_account_ne hq hu huv hrow (he ▸ hname)
      have hxw : x ≠ w := by
        obtain ⟨row₀, hrow₀, hname₀⟩ := username_of_shown hq hrow hname
        obtain ⟨y, sp, hy, hsp, hknown⟩ := username_rankingFull hq hrow₀
        obtain rfl : y = x := Option.some.inj (hy.symm.trans hname₀)
        rcases hknown with rfl | ⟨k, hk⟩
        · exact hw.reserved.symm
        · exact hw.umap sp hsp (k, y) hk
      rw [Option.map_some, Equiv.swap_apply_of_ne_of_ne hxu hxw]
  rw [List.map_congr_left hsame, List.map_id'']
  exact fun _ => rfl

/-! ## The group view -/

/-- The groups with a row, in their order. -/
def rankedGroups (ar : Arith F) (inp : Inputs F) (q : Query) : List String :=
  match inp.spend with
  | some sp => (ranked ar q (groupBoard sp inp.tables q) false).map Prod.fst
  | none => []

/-- The accounts that are counted in a group over the period. -/
def groupMembers (inp : Inputs F) (q : Query) (g : String) : List String :=
  match inp.spend with
  | some sp => membersOf inp.tables (byAccount sp q) g
  | none => []

/-- What the code hides of the groups: one counted member, not the viewer, and the first
account of the group table that has the group is anonymous. -/
def Veiled (inp : Inputs F) (q : Query) (v g : String) : Prop :=
  (groupMembers inp q g).length = 1 ∧ v ∉ groupMembers inp q g ∧
    ∃ a, firstHolder inp.tables g = some a ∧ a ∈ inp.tables.anonymousAccounts

theorem ranked_groupBoard_residue (sp : Spend) (t : Tables) (q : Query) :
    ranked ar q (groupBoard sp t q) true = [] := by
  simp [ranked, groupBoard]

/-- The rows of the group view are those of the ranked groups, with their names unless
they are veiled. -/
theorem rows_group (ar : Arith F) (inp : Inputs F) (hq : q.by_ = .group) (v : String) :
    (rankingForViewer ar inp q v false).rows.length = (rankedGroups ar inp q).length ∧
    ∀ (n : Nat) (row : Row F) g, (rankingForViewer ar inp q v false).rows[n]? = some row →
      (rankedGroups ar inp q)[n]? = some g →
        (Veiled inp q v g → row.username = none) ∧ (¬ Veiled inp q v g → row.username = some g) := by
  cases hsp : inp.spend with
  | none => simp [rankingForViewer, rankingFull, rankedGroups, hsp, hq]
  | some sp =>
    have hrows : (rankingForViewer ar inp q v false).rows =
        ((ranked ar q (groupBoard sp inp.tables q) false).mapIdx fun i p =>
          line ar sp inp.prices q (groupBoard sp inp.tables q) v
            (totalAndAvg ar q (groupBoard sp inp.tables q)).1 (some (i + 1)) p.1 p.2).map
              (veilGroup inp.tables false) := by
      simp [rankingForViewer, rankingFull, hsp, board, hq, boardRows, ranked_groupBoard_residue]
    refine ⟨?_, ?_⟩
    · simp [hrows, rankedGroups, hsp]
    · intro n row g hrow hg
      simp only [rankedGroups, hsp, List.getElem?_map, Option.map_eq_some_iff] at hg
      obtain ⟨p, hp, rfl⟩ := hg
      simp only [hrows, List.getElem?_map, List.getElem?_mapIdx, hp, Option.map_some,
        Option.some.injEq] at hrow
      subst hrow
      have hmembers : groupMembers inp q p.1 = (groupBoard sp inp.tables q).members p.1 := by
        simp only [groupMembers, hsp, groupBoard]
      unfold Veiled
      rw [hmembers]
      simp only [veilGroup, line, hq]
      constructor
      · rintro ⟨hone, hme, a, ha, hanon⟩
        rw [if_pos]
        simp [hone, hme, ha, hanon]
      · intro hnot
        rw [if_neg]
        intro hcond
        refine hnot ?_
        simp only [Bool.and_eq_true, beq_iff_eq, Option.some.injEq, Bool.not_eq_true',
          Option.getD_some, Option.any_eq_true] at hcond
        obtain ⟨⟨⟨hone, -⟩, hme⟩, a, ha, hanon⟩ := hcond
        exact ⟨hone, by simpa using hme, a, ha, by simpa using hanon⟩

/-- What an anonymous account `u` is promised towards the viewer `v`: no row has its
name, the rows of the groups in which it alone is counted have none, and the account
view is the same under another name. -/
structure AnonymityKept (ar : Arith F) (inp : Inputs F) (v u : String) : Prop where
  unnamed : ∀ q, ∀ row ∈ (rankingForViewer ar inp q v false).rows, row.username ≠ some u
  sole : ∀ q, q.by_ = .group → ∀ (n : Nat) (g : String) (row : Row F),
    (rankedGroups ar inp q)[n]? = some g →
    groupMembers inp q g = [u] → (rankingForViewer ar inp q v false).rows[n]? = some row →
      row.username = none
  renamed : ∀ w, Fresh inp w → w ≠ v → ∀ q, q.by_ = .account →
    rankingForViewer ar (inp.rename (renameTo u w)) q v false = rankingForViewer ar inp q v false

/-- The promise is kept exactly when every ranked group in which the account alone is
counted, and every ranked group that is called like the account, is one the code hides. -/
theorem anonymityKept_iff (ar : Arith F) (inp : Inputs F) (v u : String)
    (hu : u ∈ inp.tables.anonymousAccounts) (huv : u ≠ v) (hunknown : u ≠ "unknown") :
    AnonymityKept ar inp v u ↔
      ∀ q, q.by_ = .group → ∀ g ∈ rankedGroups ar inp q,
        groupMembers inp q g = [u] ∨ g = u → Veiled inp q v g := by
  constructor
  · intro h q hq g hg hcase
    obtain ⟨hlen, hnames⟩ := rows_group ar inp hq v
    obtain ⟨n, hn⟩ := List.getElem?_of_mem hg
    have hlt : n < (rankingForViewer ar inp q v false).rows.length := by
      rw [hlen]
      exact (List.getElem?_eq_some_iff.1 hn).1
    have hrow := List.getElem?_eq_getElem hlt
    by_contra hnot
    have hname := (hnames n _ g hrow hn).2 hnot
    rcases hcase with hsole | rfl
    · rw [h.sole q hq n g _ hn hsole hrow] at hname
      cases hname
    · exact h.unnamed q _ (List.getElem_mem hlt) hname
  · intro hveiled
    refine ⟨?_, ?_, ?_⟩
    · intro q row hrow
      cases hq : q.by_ with
      | account => exact username_account_ne hq hu huv hrow
      | group =>
          obtain ⟨hlen, hnames⟩ := rows_group ar inp hq v
          obtain ⟨n, hn⟩ := List.getElem?_of_mem hrow
          have hlt : n < (rankedGroups ar inp q).length := by
            rw [← hlen]
            exact (List.getElem?_eq_some_iff.1 hn).1
          have hg := List.getElem?_eq_getElem hlt
          intro hname
          by_cases hv : Veiled inp q v (rankedGroups ar inp q)[n]
          · rw [(hnames n row _ hn hg).1 hv] at hname
            cases hname
          · have hgu := (hnames n row _ hn hg).2 hv
            rw [hname, Option.some.injEq] at hgu
            exact hv (hveiled q hq _ (List.getElem_mem hlt) (Or.inr hgu.symm))
    · intro q hq n g row hg hsole hrow
      have hv := hveiled q hq g (List.mem_of_getElem? hg) (Or.inl hsole)
      exact ((rows_group ar inp hq v).2 n row g hrow hg).1 hv
    · intro w hw hwv q hq
      exact rankingForViewer_renameTo hq hu huv hunknown hw hwv

/-! ## Platforms with one active account -/

/-- Exact arithmetic, with which `f64` agrees on the figures below. -/
def ratArith : Arith ℚ where
  ofInt := fun n => n
  toInt := fun x => x.num.tdiv x.den
  add := fun x y => x + y
  sub := fun x y => x - y
  mul := fun x y => x * y
  div := fun x y => x / y
  gt := fun x y => decide (y < x)
  roundTo := fun x n => (x * 10 ^ n + 1 / 2).floor / 10 ^ n

/-- A platform whose only key is alice's, with ten tokens in one request. Alice is
anonymous, bob and eve are not. -/
def aliceOnly (groups : List (String × Option String)) : Inputs ℚ where
  spend := some
    { buckets := fun _ => ["2026-01-01"]
      current := fun _ _ => [⟨some "2026-01-01", some "k", some "m", some 4, some 6, 1⟩]
      previous := fun _ _ => []
      seen := fun _ => [⟨some "m", 1, some 10⟩]
      umap := [("k", "alice")] }
  tables :=
    { localUsers := some groups
      userSources := some []
      directoryGroups := some []
      prefs := [⟨"alice", true, none⟩] }
  prices := ⟨5 / 2, 10, "USD"⟩
  quotas := []

def groupQuery : Query := ⟨.week, .total, none, .group⟩

/-- Alice and, before her in the table, bob are in the group. -/
def sharedGroup : Inputs ℚ :=
  aliceOnly [("bob", some "lab"), ("alice", some "lab"), ("eve", none)]

/-- Nobody has a group. -/
def withoutGroups : Inputs ℚ := aliceOnly [("alice", none), ("eve", none)]

/-- Alice is the first of her group in the table. -/
def firstOfGroup : Inputs ℚ :=
  aliceOnly [("alice", some "lab"), ("bob", some "lab"), ("eve", none)]

theorem firstOfGroup_kept : "alice" ∈ firstOfGroup.tables.anonymousAccounts ∧
      AnonymityKept ratArith firstOfGroup "eve" "alice" := by
  have hu : "alice" ∈ firstOfGroup.tables.anonymousAccounts := by decide +kernel
  refine ⟨hu, ?_⟩
  rw [anonymityKept_iff ratArith firstOfGroup "eve" "alice" hu (by decide) (by decide)]
  intro q _ g hg _
  -- the logs are the same for every request: the only group is the lab
  have hlab : g = "lab" := by
    obtain ⟨p, hp, rfl⟩ := List.mem_map.1 hg
    have hp' : p.1 ∈ (byGroup firstOfGroup.tables
        (byAccount (firstOfGroup.spend.get rfl) groupQuery)).map Prod.fst :=
      List.mem_map_of_mem (List.mem_of_mem_filter (List.mem_mergeSort.1 hp))
    have hone : (byGroup firstOfGroup.tables
        (byAccount (firstOfGroup.spend.get rfl) groupQuery)).map Prod.fst = ["lab"] := by
      decide +kernel
    rw [hone] at hp'
    exact List.mem_singleton.1 hp'
  subst hlab
  have hmembers : groupMembers firstOfGroup q "lab" = ["alice"] := by
    show groupMembers firstOfGroup groupQuery "lab" = ["alice"]
    decide +kernel
  refine ⟨by rw [hmembers]; rfl, by rw [hmembers]; decide, "alice", ?_, hu⟩
  decide +kernel

theorem sole_group_shown : "alice" ∈ sharedGroup.tables.anonymousAccounts ∧
    ¬ AnonymityKept ratArith sharedGroup "eve" "alice" ∧
    "alice" ∈ withoutGroups.tables.anonymousAccounts ∧
    ¬ AnonymityKept ratArith withoutGroups "eve" "alice" := by
  have hshown : ∀ (inp : Inputs ℚ) (g : String), rankedGroups ratArith inp groupQuery = [g] →
      groupMembers inp groupQuery g = ["alice"] →
      (rankingForViewer ratArith inp groupQuery "eve" false).rows.map Row.username = [some g] →
        ¬ AnonymityKept ratArith inp "eve" "alice" := by
    intro inp g hg hsole hrows h
    obtain ⟨row, hrow, hname⟩ := List.map_eq_singleton_iff.1 hrows
    have hnone := h.sole groupQuery rfl 0 g row (by rw [hg]; rfl) hsole (by rw [hrow]; rfl)
    rw [hname] at hnone
    cases hnone
  refine ⟨by decide +kernel, hshown _ "lab" ?_ ?_ ?_, by decide +kernel,
    hshown _ noGroup ?_ ?_ ?_⟩ <;> decide +kernel

end Portal.Ranking
