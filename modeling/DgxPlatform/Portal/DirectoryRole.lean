import Mathlib.Data.List.Dedup
import DgxPlatform.Portal.Directory

/-! # When the role of a directory account does not depend on who computed it

After an LDAP login, `recompute_members` and `sync_ldap_groups` store the role again,
from the imported groups alone. `Later` are the states they lead to while neither
the account's groups nor the flags change.
-/

namespace Portal.Accounts

open Db

/-- Texts that differ in the case of ASCII letters have the same lower case. -/
def Env.FoldsAscii (env : Env) : Prop := ∀ a b, sqlLower a = sqlLower b → env.lower a = env.lower b

theorem foldsAscii_ascii : Env.ascii.FoldsAscii := fun _ _ h => h

/-! ## What the groups grant -/

namespace Db

variable (env : Env) (s : Db)

/-- The name is the admin group's. -/
def adminName (n : Name) : Bool :=
  let adminGroup := env.lower (pyStrip s.oidcAdminGroup)
  decide (adminGroup ≠ []) && decide (env.lower n = adminGroup)

/-- The group of exactly that name grants the right. -/
def groupGrants (n : Name) : Bool :=
  (s.groups.find? n).any fun g => g.isAdmin || s.adminName env g.name

/-- A group that the account is in from another source than LDAP grants the right. -/
def otherGrants (username : Name) : Bool :=
  s.directory.any fun d =>
    decide (d.username = username) && decide (d.source ≠ LDAP) && s.groupGrants env d.groupName

/-- A name in `memberOf` grants the right: the group it merges into has the flag, or
it is the admin group's name. -/
def nameGrants (n : Name) : Bool := (s.mergesInto n).any Group.isAdmin || s.adminName env n

def namesGrant (ns : List GroupName) : Bool := ns.any fun n => s.nameGrants env n.cut

end Db

variable {env : Env} {s t t' : Db} {u username source : Name} {r : Bool}

theorem rightsFromGroups_eq_true :
    (s.rightsFromGroups env u).1 = true ↔
      ∃ d ∈ s.directory, d.username = u ∧ s.groupGrants env d.groupName = true := by
  show (List.any _ _) = true ↔ _
  simp only [List.any_eq_true, directoryGroupsOf, List.mem_filter, Bool.and_eq_true,
    decide_eq_true_eq]
  constructor
  · rintro ⟨g, ⟨hg, d, hd, hu, hname⟩, hgrants⟩
    refine ⟨d, hd, hu, ?_⟩
    unfold groupGrants
    rw [hname, Table.find?_of_mem hg]
    simpa [adminName] using hgrants
  · rintro ⟨d, hd, hu, hgrants⟩
    rcases (Option.any_eq_true _ _).1 hgrants with ⟨g, hfind, hg⟩
    exact ⟨g, ⟨Table.mem_of_find? hfind, d, hd, hu, (Table.key_of_find? hfind).symm⟩,
      by simpa [adminName] using hg⟩

theorem otherGrants_eq_true :
    s.otherGrants env u = true ↔
      ∃ d ∈ s.directory, d.username = u ∧ d.source ≠ LDAP ∧
        s.groupGrants env d.groupName = true := by
  unfold otherGrants
  simp only [List.any_eq_true, Bool.and_eq_true, decide_eq_true_eq, and_assoc]

/-! ## What an import does -/

/-- `t` is `s` after `ns` were imported for the account from `source`. -/
structure Imported (s t : Db) (username source : Name) (ns : List GroupName) : Prop where
  /-- New groups come last, without the flag, under a name that no group had. -/
  groups : ∃ added : List Group, t.groups.rows = s.groups.rows ++ added ∧
    ∀ g ∈ added, g.isAdmin = false ∧ s.mergesInto g.name = none ∧ ∃ n ∈ ns, n.cut.1 = g.name
  /-- Every name has its group. -/
  merged : ∀ n ∈ ns, ∃ g, t.mergesInto n.cut = some g
  /-- The account is in the groups of the names. -/
  directory : ∀ d, d ∈ t.directory ↔ d ∈ s.directory ∨
    d.username = username ∧ d.source = source ∧
      ∃ n ∈ ns, ∃ g, t.mergesInto n.cut = some g ∧ g.name = d.groupName
  rest : t = { s with groups := t.groups, directory := t.directory }

theorem mergesInto_append {added : List Group} {n : Name} {g : Group}
    (h : t.groups.rows = s.groups.rows ++ added) (hg : s.mergesInto n = some g) :
    t.mergesInto n = some g := by
  unfold mergesInto at hg ⊢
  rw [h, List.find?_append, hg, Option.some_or]

theorem sqlLower_of_mergesInto {n : Name} {g : Group} (h : s.mergesInto n = some g) :
    sqlLower g.name = sqlLower n := by
  simpa using List.find?_some h

theorem mem_insertMembership {d d' : DirectoryGroup} :
    d' ∈ (s.insertMembership d).directory ↔ d' ∈ s.directory ∨ d' = d := by
  show d' ∈ (if d ∈ s.directory then s.directory else s.directory ++ [d]) ↔ _
  split
  · next h =>
      constructor
      · exact .inl
      · rintro (h' | rfl)
        · exact h'
        · exact h
  · simp

/-- One name of an import: the group it finds or makes, and the membership. -/
theorem importGroup_spec (s : Db) (username source : Name) (n : GroupName) :
    ∃ (g : Group) (added : List Group),
      (s.importGroup username source n).groups.rows = s.groups.rows ++ added ∧
      (∀ a ∈ added, a = .imported n.cut ∧ s.mergesInto n.cut = none) ∧
      (s.importGroup username source n).mergesInto n.cut = some g ∧
      (∀ d, d ∈ (s.importGroup username source n).directory ↔
        d ∈ s.directory ∨ d = ⟨username, g.name, source⟩) ∧
      s.importGroup username source n =
        { s with groups := (s.importGroup username source n).groups
                 directory := (s.importGroup username source n).directory } := by
  unfold importGroup
  split
  · next hnone =>
      -- no group has the name in any case, so none has it exactly
      have hfind : s.groups.find? (Group.imported n.cut).name = none := by
        refine List.find?_eq_none.2 fun q hq => ?_
        have hq' := List.find?_eq_none.1 hnone q hq
        simp only [decide_eq_true_eq] at hq' ⊢
        exact fun e => hq' (congrArg sqlLower e)
      have hrows : (s.insertGroup n.cut).groups.rows = s.groups.rows ++ [.imported n.cut] :=
        Table.upsert_rows_of_none hfind
      refine ⟨.imported n.cut, [.imported n.cut], hrows, ?_, ?_, ?_, rfl⟩
      · intro a ha
        exact ⟨List.mem_singleton.1 ha, hnone⟩
      · show ((s.insertGroup n.cut).groups.rows.find? _) = _
        unfold mergesInto at hnone
        rw [hrows, List.find?_append, hnone]
        simp [Group.imported]
      · intro d
        exact mem_insertMembership
  · next g hg =>
      refine ⟨g, [], (List.append_nil _).symm, by simp, hg, ?_, rfl⟩
      intro d
      exact mem_insertMembership

theorem Imported.refl (s : Db) : Imported s s username source [] :=
  ⟨⟨[], (List.append_nil _).symm, by simp⟩, by simp, by simp, rfl⟩

theorem Imported.importGroup {ns : List GroupName} (h : Imported s t username source ns)
    (n : GroupName) : Imported s (t.importGroup username source n) username source (ns ++ [n]) := by
  rcases h.groups with ⟨added, hrows, hadded⟩
  rcases importGroup_spec t username source n with ⟨g, new, hrows', hnew, hg, hdir, hrest⟩
  have hkept : ∀ m ∈ ns, ∀ a, t.mergesInto m.cut = some a →
      (t.importGroup username source n).mergesInto m.cut = some a := by
    intro m _ a ha
    exact mergesInto_append hrows' ha
  refine ⟨⟨added ++ new, by rw [hrows', hrows, List.append_assoc], ?_⟩, ?_, ?_, ?_⟩
  · intro a ha
    rcases List.mem_append.1 ha with ha | ha
    · rcases hadded a ha with ⟨hflag, hnone, m, hm, hcut⟩
      exact ⟨hflag, hnone, m, List.mem_append_left _ hm, hcut⟩
    · rcases hnew a ha with ⟨rfl, hnone⟩
      refine ⟨rfl, ?_, n, by simp, rfl⟩
      -- no group of `t` has the name, hence none of `s`
      unfold mergesInto at hnone ⊢
      rw [hrows, List.find?_append, Option.or_eq_none_iff] at hnone
      exact hnone.1
  · intro m hm
    rcases List.mem_append.1 hm with hm | hm
    · rcases h.merged m hm with ⟨a, ha⟩
      exact ⟨a, hkept m hm a ha⟩
    · rw [List.mem_singleton.1 hm]
      exact ⟨g, hg⟩
  · intro d
    rw [hdir, h.directory]
    constructor
    · rintro ((hd | ⟨hu, hs, m, hm, a, ha, hname⟩) | rfl)
      · exact .inl hd
      · exact .inr ⟨hu, hs, m, List.mem_append_left _ hm, a, hkept m hm a ha, hname⟩
      · exact .inr ⟨rfl, rfl, n, by simp, g, hg, rfl⟩
    · rintro (hd | ⟨hu, hs, m, hm, a, ha, hname⟩)
      · exact .inl (.inl hd)
      · rcases List.mem_append.1 hm with hm | hm
        · -- an earlier name keeps the group it had found
          rcases h.merged m hm with ⟨b, hb⟩
          obtain rfl : b = a := Option.some.inj ((hkept m hm b hb).symm.trans ha)
          exact .inl (.inr ⟨hu, hs, m, hm, b, hb, hname⟩)
        · obtain rfl := List.mem_singleton.1 hm
          obtain rfl : g = a := Option.some.inj (hg.symm.trans ha)
          refine .inr ?_
          cases d
          simp only at hu hs hname
          rw [hu, hs, hname]
  · have hrest' := h.rest
    rw [hrest]
    rw [hrest']

theorem mem_deleteSource {d : DirectoryGroup} :
    d ∈ (s.deleteSource username source).directory ↔
      d ∈ s.directory ∧ ¬ (d.username = username ∧ d.source = source) := by
  unfold deleteSource
  rw [List.mem_filter, decide_eq_true_eq]

/-- Importing a list of values: the names they are reduced to, after the account's
memberships from that source are gone. -/
theorem importGroups_imported (s : Db) (username source : Name) (values : List Name) :
    Imported (s.deleteSource username source) (s.importGroups username source values) username
      source (groupNames values) := by
  unfold importGroups
  induction groupNames values using List.reverseRecOn with
  | nil => exact .refl _
  | append_singleton ns n ih =>
    rw [List.foldl_append]
    exact ih.importGroup n

section Grants

variable {ns : List GroupName}

theorem Imported.adminName (h : Imported s t username source ns) (n : Name) :
    t.adminName env n = s.adminName env n := by
  rw [h.rest]
  rfl

/-- What a name grants does not change by an import: it adds no flag. -/
theorem Imported.nameGrants (h : Imported s t username source ns) (n : Name) :
    t.nameGrants env n = s.nameGrants env n := by
  have hflag : (t.mergesInto n).any Group.isAdmin = (s.mergesInto n).any Group.isAdmin := by
    rcases h.groups with ⟨added, hrows, hadded⟩
    cases hs : s.mergesInto n with
    -- the groups that were there come first
    | some g => rw [mergesInto_append hrows hs]
    | none =>
      rw [Option.any_none, Option.any_eq_false]
      intro g hg
      unfold mergesInto at hs hg
      rw [hrows, List.find?_append, hs, Option.none_or] at hg
      exact (hadded g (List.mem_of_find?_eq_some hg)).1
  unfold Db.nameGrants
  rw [hflag, h.adminName]

theorem Imported.namesGrant (h : Imported s t username source ns) (ms : List GroupName) :
    t.namesGrant env ms = s.namesGrant env ms := by
  unfold Db.namesGrant
  simp only [h.nameGrants]

/-- The group of exactly that name is one that was there, or it was added under a
name that no group had. -/
theorem Imported.groupGrants (h : Imported s t username source ns) {n : Name}
    (hn : t.groupGrants env n = true) :
    s.groupGrants env n = true ∨
      s.mergesInto n = none ∧ s.adminName env n = true ∧ ∃ m ∈ ns, m.cut.1 = n := by
  rcases (Option.any_eq_true _ _).1 hn with ⟨g, hfind, hgrants⟩
  obtain rfl := Table.key_of_find? hfind
  rcases h.groups with ⟨added, hrows, hadded⟩
  have hmem : g ∈ s.groups.rows ++ added := hrows ▸ Table.mem_of_find? hfind
  rw [h.adminName] at hgrants
  rcases List.mem_append.1 hmem with hold | hnew
  · refine .inl ((Option.any_eq_true _ _).2 ⟨g, Table.find?_of_mem hold, hgrants⟩)
  · rcases hadded g hnew with ⟨hflag, hnone, m, hm, hcut⟩
    rw [hflag, Bool.false_or] at hgrants
    exact .inr ⟨hnone, hgrants, m, hm, hcut⟩

theorem Imported.groupGrants_of (h : Imported s t username source ns) {n : Name}
    (hn : s.groupGrants env n = true) : t.groupGrants env n = true := by
  rcases (Option.any_eq_true _ _).1 hn with ⟨g, hfind, hgrants⟩
  obtain rfl := Table.key_of_find? hfind
  rcases h.groups with ⟨added, hrows, -⟩
  have hmem : g ∈ t.groups.rows := by
    rw [hrows]
    exact List.mem_append_left _ (Table.mem_of_find? hfind)
  refine (Option.any_eq_true _ _).2 ⟨g, Table.find?_of_mem hmem, ?_⟩
  rw [h.adminName]
  exact hgrants

/-- What the group grants that a name merges into is what the name grants. -/
theorem groupGrants_of_mergesInto (henv : env.FoldsAscii) {n : Name} {g : Group}
    (h : s.mergesInto n = some g) : s.groupGrants env g.name = s.nameGrants env n := by
  have hlower : env.lower g.name = env.lower n := henv _ _ (sqlLower_of_mergesInto h)
  have hfind : s.groups.find? g.name = some g :=
    Table.find?_of_mem (List.mem_of_find?_eq_some h)
  unfold Db.groupGrants Db.nameGrants Db.adminName
  rw [hfind, h, Option.any_some, Option.any_some, hlower]

end Grants

/-- What the groups of an account grant after an import from LDAP: what those from
other sources did before it, or what one of the imported names does. -/
theorem importGroups_rights (henv : env.FoldsAscii) (s : Db) (u : Name) (values : List Name) :
    ((s.importGroups u LDAP values).rightsFromGroups env u).1 =
      (s.otherGrants env u || s.namesGrant env (groupNames values)) := by
  have himp := importGroups_imported s u LDAP values
  generalize s.importGroups u LDAP values = t at himp ⊢
  rw [Bool.eq_iff_iff, rightsFromGroups_eq_true, Bool.or_eq_true, otherGrants_eq_true]
  constructor
  · rintro ⟨d, hd, hu, hgrants⟩
    rcases (himp.directory d).1 hd with hd | ⟨-, -, n, hn, g, hg, hname⟩
    · -- a membership from another source: its group was there, or is one of the imported
      rcases mem_deleteSource.1 hd with ⟨hd, hsource⟩
      rcases himp.groupGrants hgrants with hold | ⟨-, hadmin, n, hn, hcut⟩
      · exact .inl ⟨d, hd, hu, fun e => hsource ⟨hu, e⟩, hold⟩
      · refine .inr (List.any_eq_true.2 ⟨n, hn, ?_⟩)
        have hadmin' : s.adminName env n.cut = true := by rw [hcut]; exact hadmin
        rw [Db.nameGrants, hadmin', Bool.or_true]
    · -- an imported membership: its name grants what its group does
      refine .inr (List.any_eq_true.2 ⟨n, hn, ?_⟩)
      rw [← hname, groupGrants_of_mergesInto henv hg, himp.nameGrants] at hgrants
      exact hgrants
  · rintro (⟨d, hd, hu, hsource, hgrants⟩ | hgrants)
    · have hd' : d ∈ (s.deleteSource u LDAP).directory :=
        mem_deleteSource.2 ⟨hd, fun e => hsource e.2⟩
      exact ⟨d, (himp.directory d).2 (.inl hd'), hu, himp.groupGrants_of hgrants⟩
    · rcases List.any_eq_true.1 hgrants with ⟨n, hn, hgrants⟩
      rcases himp.merged n hn with ⟨g, hg⟩
      refine ⟨⟨u, g.name, LDAP⟩,
        (himp.directory _).2 (.inr ⟨rfl, rfl, n, hn, g, hg, rfl⟩), rfl, ?_⟩
      rw [groupGrants_of_mergesInto henv hg, himp.nameGrants]
      exact hgrants

/-- The account's groups of other sources are among all its groups. -/
theorem rights_of_otherGrants (h : s.otherGrants env u = true) :
    (s.rightsFromGroups env u).1 = true := by
  rcases otherGrants_eq_true.1 h with ⟨d, hd, hu, -, hgrants⟩
  exact rightsFromGroups_eq_true.2 ⟨d, hd, hu, hgrants⟩

/-- An import from LDAP takes nothing from the groups of other sources. -/
theorem otherGrants_importGroups {values : List Name} (h : s.otherGrants env u = true) :
    (s.importGroups u LDAP values).otherGrants env u = true := by
  have himp := importGroups_imported s u LDAP values
  rcases otherGrants_eq_true.1 h with ⟨d, hd, hu, hsource, hgrants⟩
  have hd' : d ∈ (s.deleteSource u LDAP).directory :=
    mem_deleteSource.2 ⟨hd, fun e => hsource e.2⟩
  exact otherGrants_eq_true.2
    ⟨d, (himp.directory d).2 (.inl hd'), hu, hsource, himp.groupGrants_of hgrants⟩

/-! ## Comparing with the directory -/

theorem sameNames_eq_true {a b : List Name} :
    sameNames env a b = true ↔ ∀ x, x ∈ a.map env.lower ↔ x ∈ b.map env.lower := by
  unfold sameNames
  simp only [Bool.and_eq_true, List.all_eq_true, decide_eq_true_eq]
  constructor
  · rintro ⟨hab, hba⟩ x
    exact ⟨hab x, hba x⟩
  · intro h
    exact ⟨fun x => (h x).1, fun x => (h x).2⟩

theorem sameNames_congr {names : List Name}
    (h : ∀ d, d.username = u → (d ∈ t.directory ↔ d ∈ s.directory)) :
    sameNames env (t.ldapNames u) names = sameNames env (s.ldapNames u) names := by
  have hmem : ∀ x, x ∈ (t.ldapNames u).map env.lower ↔ x ∈ (s.ldapNames u).map env.lower := by
    intro x
    unfold ldapNames
    simp only [List.map_map, List.mem_map, List.mem_filter, decide_eq_true_eq]
    constructor
    · rintro ⟨d, ⟨hd, hu, hsource⟩, rfl⟩
      exact ⟨d, ⟨(h d hu).1 hd, hu, hsource⟩, rfl⟩
    · rintro ⟨d, ⟨hd, hu, hsource⟩, rfl⟩
      exact ⟨d, ⟨(h d hu).2 hd, hu, hsource⟩, rfl⟩
  rw [Bool.eq_iff_iff, sameNames_eq_true, sameNames_eq_true]
  simp only [hmem]

/-- The names that `sync_ldap_groups` reads back after an import are the imported
ones, cut, up to their case. -/
theorem sameNames_ldapNames (henv : env.FoldsAscii) {values names : List Name} :
    sameNames env ((s.importGroups u LDAP values).ldapNames u) names =
      sameNames env ((groupNames values).map fun n => n.cut.1) names := by
  have himp := importGroups_imported s u LDAP values
  generalize s.importGroups u LDAP values = t at himp ⊢
  have hmem : ∀ x, x ∈ (t.ldapNames u).map env.lower ↔
      x ∈ ((groupNames values).map fun n => n.cut.1).map env.lower := by
    intro x
    unfold ldapNames
    simp only [List.map_map, List.mem_map, List.mem_filter, decide_eq_true_eq, Function.comp_apply]
    constructor
    · rintro ⟨d, ⟨hd, hu, hsource⟩, rfl⟩
      rcases (himp.directory d).1 hd with hd | ⟨-, -, n, hn, g, hg, hname⟩
      · -- the memberships from before the import are gone
        exact absurd ⟨hu, hsource⟩ (mem_deleteSource.1 hd).2
      · exact ⟨n, hn, by rw [← hname]; exact (henv _ _ (sqlLower_of_mergesInto hg)).symm⟩
    · rintro ⟨n, hn, rfl⟩
      rcases himp.merged n hn with ⟨g, hg⟩
      exact ⟨⟨u, g.name, LDAP⟩,
        ⟨(himp.directory _).2 (.inr ⟨rfl, rfl, n, hn, g, hg, rfl⟩), rfl, rfl⟩,
        henv _ _ (sqlLower_of_mergesInto hg)⟩
  rw [Bool.eq_iff_iff, sameNames_eq_true, sameNames_eq_true]
  simp only [hmem]

/-! ## The states after a login -/

/-- Neither the account's groups nor the flags of the groups have changed from `t` to
`t'`, and nobody has touched the stored role. Anything else may have: quotas, other
accounts, groups that came or went. -/
structure Unchanged (u : Name) (t t' : Db) : Prop where
  isDirectory : t'.localUsers.named u = none
  stored : t'.sources.find? u = t.sources.find? u
  adminGroup : t'.adminGroup = t.adminGroup
  memberships : ∀ d, d.username = u → (d ∈ t'.directory ↔ d ∈ t.directory)
  groups : ∀ d ∈ t.directory, d.username = u →
    (t'.groups.find? d.groupName).map Group.isAdmin = (t.groups.find? d.groupName).map Group.isAdmin
  flags : ∀ n, (t'.mergesInto n).any Group.isAdmin = (t.mergesInto n).any Group.isAdmin

/-- What can follow: the two later paths, the second one reading the same `names`
from the directory, and whatever leaves the account's groups and the flags alone. -/
inductive Later (env : Env) (u : Name) (names : List Name) : Db → Db → Prop
  | refl (s : Db) : Later env u names s s
  | recompute {s t : Db} (group : Name) (h : Later env u names s t) :
      Later env u names s (t.recomputeMembers env group)
  | sync {s t : Db} (h : Later env u names s t) : Later env u names s (t.syncAccount env u names)
  | unrelated {s t t' : Db} (h : Later env u names s t) (hsame : Unchanged u t t') :
      Later env u names s t'

/-- The names `read_directory` finds in the same values. -/
def directoryNames (values : List Name) : List Name := (groupNames values).map Subtype.val

/-- Whatever computes it next, the role stays the one of the login. -/
def RoleKept (env : Env) (s : Db) (u : Name) (values : List Name) : Prop :=
  ∀ t, Later env u (directoryNames values) (s.login env u values) t →
    t.role u = some (s.loginRole env u values)

/-- A condition on the values, on the setting and on the tables before the login.

* `shown`: where a value has the admin group's name in one of its components, an
  imported group (or one from another source) grants the right too, or the account
  has no group that could be recomputed.
* `readAgain`: where the cut makes the directory's names differ from the imported
  ones, the names that are left after a second reading grant what the first did. -/
structure Agrees (env : Env) (s : Db) (u : Name) (values : List Name) : Prop where
  shown : values.any (fun v => isAdminGroup env v s.oidcAdminGroup) = true →
    s.otherGrants env u = true ∨ s.namesGrant env (groupNames values) = true ∨
      groupNames values = [] ∧ ∀ d ∈ s.directory, d.username = u → d.source = LDAP
  readAgain : sameNames env ((groupNames values).map fun n => n.cut.1) (directoryNames values) =
      false →
    ((s.importGroups u LDAP values).otherGrants env u ||
        s.namesGrant env (groupNames (directoryNames values))) =
      (s.otherGrants env u || s.namesGrant env (groupNames values))

/-- The invariant of the later states: the stored role is `r`, and so is what either
path would store next. -/
structure RoleHolds (env : Env) (u : Name) (names : List Name) (r : Bool) (t : Db) : Prop where
  isDirectory : t.localUsers.named u = none
  stored : t.role u = some r
  recomputed : (∃ d ∈ t.directory, d.username = u) → (t.rightsFromGroups env u).1 = r
  synced : sameNames env (t.ldapNames u) names = false →
    (t.otherGrants env u || t.namesGrant env (groupNames names)) = r

section Steps

variable {names : List Name}

theorem role_withRole {row : Source} (h : t.sources.find? u = some row) (b : Bool) :
    ((t.sources.find? u).map (Source.withRole b)).bind Source.lastIsAdmin = some b := by
  rw [h]
  rfl

theorem RoleHolds.recompute (h : RoleHolds env u names r t) (group : Name) :
    RoleHolds env u names r (t.recomputeMembers env group) := by
  rcases recomputeMembers_eq env t group with ⟨sources, heq, hfind⟩
  rw [heq]
  refine ⟨h.isDirectory, ?_, h.recomputed, h.synced⟩
  show (sources.find? u).bind Source.lastIsAdmin = some r
  rw [hfind]
  split
  · next hmember =>
      -- a member of the group has a membership, so the recomputed role is `r`
      have hmem : ∃ d ∈ t.directory, d.username = u := by
        rw [directoryMembers, List.mem_dedup] at hmember
        rcases List.mem_map.1 hmember with ⟨d, hd, hu⟩
        exact ⟨d, List.mem_of_mem_filter hd, hu⟩
      rcases Option.bind_eq_some_iff.1 h.stored with ⟨row, hrow, -⟩
      rw [h.recomputed hmem]
      exact role_withRole hrow r
  · exact h.stored

theorem RoleHolds.sync (henv : env.FoldsAscii) (h : RoleHolds env u names r t) :
    RoleHolds env u names r (t.syncAccount env u names) := by
  unfold syncAccount
  split
  · exact h
  · next hdiffers =>
      have hr := h.synced (by simpa using hdiffers)
      have himp := importGroups_imported t u LDAP names
      have hrights : ((t.importGroups u LDAP names).rightsFromGroups env u).1 = r :=
        (importGroups_rights henv t u names).trans hr
      have hsources : (t.importGroups u LDAP names).sources = t.sources := by rw [himp.rest]; rfl
      have hlocal : (t.importGroups u LDAP names).localUsers = t.localUsers := by
        rw [himp.rest]; rfl
      have hnames : (t.importGroups u LDAP names).namesGrant env (groupNames names) =
          t.namesGrant env (groupNames names) := himp.namesGrant _
      refine ⟨?_, ?_, fun _ => hrights, fun _ => ?_⟩
      · show (t.importGroups u LDAP names).localUsers.named u = none
        rw [hlocal]
        exact h.isDirectory
      · rcases Option.bind_eq_some_iff.1 h.stored with ⟨row, hrow, -⟩
        unfold recomputeMember role
        rw [Table.find?_update, if_pos rfl, hrights, hsources]
        exact role_withRole hrow r
      · -- a second import grants no more: what other sources grant is among the account's rights
        show ((t.importGroups u LDAP names).otherGrants env u ||
          (t.importGroups u LDAP names).namesGrant env (groupNames names)) = r
        rw [hnames]
        cases hother : (t.importGroups u LDAP names).otherGrants env u with
        | true => rw [Bool.true_or, ← hrights, rights_of_otherGrants hother]
        | false =>
          -- no other source grants it now, so none did before the import
          have hbefore : t.otherGrants env u = false := by
            by_contra hcon
            rw [otherGrants_importGroups (by simpa using hcon)] at hother
            cases hother
          rw [← hr, hbefore]

theorem Unchanged.groupGrants (h : Unchanged u t t') {d : DirectoryGroup} (hd : d ∈ t.directory)
    (hu : d.username = u) : t'.groupGrants env d.groupName = t.groupGrants env d.groupName := by
  have hflag := h.groups d hd hu
  have hname : ∀ n, t'.adminName env n = t.adminName env n := by
    intro n
    unfold adminName oidcAdminGroup
    rw [h.adminGroup]
  unfold Db.groupGrants
  cases ht : t.groups.find? d.groupName with
  | none =>
    rw [ht] at hflag
    rw [Option.map_eq_none_iff.1 hflag]
    rfl
  | some g =>
    rw [ht] at hflag
    rcases Option.map_eq_some_iff.1 hflag with ⟨g', hg', hadmin⟩
    rw [hg', Option.any_some, Option.any_some, hadmin, hname, Table.key_of_find? hg',
      Table.key_of_find? ht]

theorem RoleHolds.unrelated (h : RoleHolds env u names r t) (hsame : Unchanged u t t') :
    RoleHolds env u names r t' := by
  have hrights : (t'.rightsFromGroups env u).1 = (t.rightsFromGroups env u).1 := by
    rw [Bool.eq_iff_iff, rightsFromGroups_eq_true, rightsFromGroups_eq_true]
    constructor
    · rintro ⟨d, hd, hu, hgrants⟩
      have hd' := (hsame.memberships d hu).1 hd
      exact ⟨d, hd', hu, by rw [← hsame.groupGrants hd' hu]; exact hgrants⟩
    · rintro ⟨d, hd, hu, hgrants⟩
      exact ⟨d, (hsame.memberships d hu).2 hd, hu, by rw [hsame.groupGrants hd hu]; exact hgrants⟩
  have hother : t'.otherGrants env u = t.otherGrants env u := by
    rw [Bool.eq_iff_iff, otherGrants_eq_true, otherGrants_eq_true]
    constructor
    · rintro ⟨d, hd, hu, hsource, hgrants⟩
      have hd' := (hsame.memberships d hu).1 hd
      exact ⟨d, hd', hu, hsource, by rw [← hsame.groupGrants hd' hu]; exact hgrants⟩
    · rintro ⟨d, hd, hu, hsource, hgrants⟩
      exact ⟨d, (hsame.memberships d hu).2 hd, hu, hsource,
        by rw [hsame.groupGrants hd hu]; exact hgrants⟩
  have hnames : t'.namesGrant env (groupNames names) = t.namesGrant env (groupNames names) := by
    unfold Db.namesGrant Db.nameGrants adminName oidcAdminGroup
    simp only [hsame.flags, hsame.adminGroup]
  have hldap : sameNames env (t'.ldapNames u) names = sameNames env (t.ldapNames u) names :=
    sameNames_congr hsame.memberships
  refine ⟨hsame.isDirectory, ?_, ?_, ?_⟩
  · unfold role
    rw [hsame.stored]
    exact h.stored
  · rintro ⟨d, hd, hu⟩
    rw [hrights]
    exact h.recomputed ⟨d, (hsame.memberships d hu).1 hd, hu⟩
  · rw [hldap, hother, hnames]
    exact h.synced

theorem RoleHolds.later (henv : env.FoldsAscii) (h : RoleHolds env u names r s)
    (hlater : Later env u names s t) : RoleHolds env u names r t := by
  induction hlater with
  | refl => exact h
  | recompute group _ ih => exact ih.recompute group
  | sync _ ih => exact ih.sync henv
  | unrelated _ hsame ih => exact ih.unrelated hsame

end Steps

/-! ## Right after the login -/

theorem role_login (env : Env) (s : Db) (u : Name) (values : List Name) :
    (s.login env u values).role u = some (s.loginRole env u values) := by
  unfold role login recordSource
  simp only
  rw [Table.find?_upsert, if_pos rfl]
  cases (s.importGroups u LDAP values).sources.find? u <;> rfl

theorem login_row (env : Env) (s : Db) (u : Name) (values : List Name) :
    ∃ row, (s.login env u values).sources.find? u = some row := by
  rcases Option.bind_eq_some_iff.1 (role_login env s u values) with ⟨row, hrow, -⟩
  exact ⟨row, hrow⟩

theorem named_importGroups (s : Db) (u : Name) (values : List Name) :
    (s.importGroups u LDAP values).localUsers = s.localUsers := by
  rw [(importGroups_imported s u LDAP values).rest]
  rfl

/-- The account has a group after the import when a name was imported, or when it has
one from another source. -/
theorem exists_membership {values : List Name} :
    (∃ d ∈ (s.importGroups u LDAP values).directory, d.username = u) ↔
      ¬ (groupNames values = [] ∧ ∀ d ∈ s.directory, d.username = u → d.source = LDAP) := by
  have himp := importGroups_imported s u LDAP values
  constructor
  · rintro ⟨d, hd, hu⟩ ⟨hnil, hldap⟩
    rcases (himp.directory d).1 hd with hd | ⟨-, -, n, hn, -⟩
    · rcases mem_deleteSource.1 hd with ⟨hd, hne⟩
      exact hne ⟨hu, hldap d hd hu⟩
    · rw [hnil] at hn
      cases hn
  · intro h
    by_cases hnil : groupNames values = []
    · have hother : ¬ ∀ d ∈ s.directory, d.username = u → d.source = LDAP := fun e => h ⟨hnil, e⟩
      push Not at hother
      rcases hother with ⟨d, hd, hu, hsource⟩
      exact ⟨d, (himp.directory d).2 (.inl (mem_deleteSource.2 ⟨hd, fun e => hsource e.2⟩)), hu⟩
    · rcases List.exists_mem_of_ne_nil _ hnil with ⟨n, hn⟩
      rcases himp.merged n hn with ⟨g, hg⟩
      exact ⟨⟨u, g.name, LDAP⟩,
        (himp.directory _).2 (.inr ⟨rfl, rfl, n, hn, g, hg, rfl⟩), rfl⟩

section Login

variable {values : List Name}

theorem loginRole_eq (henv : env.FoldsAscii) :
    s.loginRole env u values =
      (values.any (fun v => isAdminGroup env v s.oidcAdminGroup) ||
        (s.otherGrants env u || s.namesGrant env (groupNames values))) := by
  unfold loginRole
  rw [importGroups_rights henv]

/-- Where a group can be recomputed and every match of the raw values shows, the role
of the login is what the groups grant. -/
theorem loginRole_of_shown (henv : env.FoldsAscii)
    (hshown : values.any (fun v => isAdminGroup env v s.oidcAdminGroup) = true →
      s.otherGrants env u = true ∨ s.namesGrant env (groupNames values) = true ∨
        groupNames values = [] ∧ ∀ d ∈ s.directory, d.username = u → d.source = LDAP)
    (hmem : ∃ d ∈ (s.importGroups u LDAP values).directory, d.username = u) :
    s.loginRole env u values =
      (s.otherGrants env u || s.namesGrant env (groupNames values)) := by
  rw [loginRole_eq henv]
  cases hadmin : values.any (fun v => isAdminGroup env v s.oidcAdminGroup) with
  | false => rw [Bool.false_or]
  | true =>
    rcases hshown hadmin with hother | hnames | hnone
    · rw [hother]
      rfl
    · rw [hnames, Bool.or_true]
      rfl
    · exact absurd hnone (exists_membership.1 hmem)

/-- Where the cut names differ from the directory's, there are names. -/
theorem membership_of_differs
    (h : sameNames env ((groupNames values).map fun n => n.cut.1) (directoryNames values) = false) :
    ∃ d ∈ (s.importGroups u LDAP values).directory, d.username = u := by
  refine exists_membership.2 ?_
  rintro ⟨hnil, -⟩
  rw [directoryNames, hnil] at h
  cases h

theorem Agrees.roleHolds (henv : env.FoldsAscii) (hdir : s.localUsers.named u = none)
    (h : Agrees env s u values) :
    RoleHolds env u (directoryNames values) (s.loginRole env u values) (s.login env u values) := by
  refine ⟨?_, role_login env s u values, ?_, ?_⟩
  · show (s.importGroups u LDAP values).localUsers.named u = none
    rw [named_importGroups]
    exact hdir
  · intro hmem
    rw [loginRole_of_shown henv h.shown hmem]
    exact importGroups_rights henv s u values
  · intro hdiffers
    have hdiffers' : sameNames env ((groupNames values).map fun n => n.cut.1)
        (directoryNames values) = false := by
      rw [← hdiffers]
      exact (sameNames_ldapNames henv).symm
    rw [loginRole_of_shown henv h.shown (membership_of_differs hdiffers'),
      ← h.readAgain hdiffers']
    exact congrArg _ ((importGroups_imported s u LDAP values).namesGrant _)

/-- Recomputing one of the account's groups stores what its groups grant: they have to
show what the raw values do. -/
theorem RoleKept.shown (henv : env.FoldsAscii) (hdir : s.localUsers.named u = none)
    (hkept : RoleKept env s u values)
    (hadmin : values.any (fun v => isAdminGroup env v s.oidcAdminGroup) = true) :
    s.otherGrants env u = true ∨ s.namesGrant env (groupNames values) = true ∨
      groupNames values = [] ∧ ∀ d ∈ s.directory, d.username = u → d.source = LDAP := by
  by_cases hmem : ∃ d ∈ (s.importGroups u LDAP values).directory, d.username = u
  · rcases hmem with ⟨d, hd, hu⟩
    have hrole := hkept _ (.recompute d.groupName (.refl _))
    rcases recomputeMembers_eq env (s.login env u values) d.groupName with ⟨sources, heq, hfind⟩
    -- recompute the very group the account is in
    have hmember : u ∈ (s.login env u values).directoryMembers d.groupName := by
      rw [directoryMembers, List.mem_dedup]
      refine List.mem_map.2 ⟨d, List.mem_filter.2 ⟨hd, ?_⟩, hu⟩
      have hlocal : (s.login env u values).localUsers.named d.username = none := by
        show (s.importGroups u LDAP values).localUsers.named d.username = none
        rw [named_importGroups, hu]
        exact hdir
      rw [hlocal]
      simp
    rcases login_row env s u values with ⟨row, hrow⟩
    rw [heq] at hrole
    have hstored : (sources.find? u).bind Source.lastIsAdmin =
        some (s.loginRole env u values) := hrole
    rw [hfind, if_pos hmember, role_withRole hrow, loginRole_eq henv, hadmin] at hstored
    have hrights : ((s.importGroups u LDAP values).rightsFromGroups env u).1 = true :=
      Option.some.inj hstored
    rw [importGroups_rights henv, Bool.or_eq_true] at hrights
    rcases hrights with hother | hnames
    · exact .inl hother
    · exact .inr (.inl hnames)
  · exact .inr (.inr (not_not.1 fun e => hmem (exists_membership.2 e)))

/-- A sync that finds other names than were imported stores what these grant. -/
theorem RoleKept.readAgain (henv : env.FoldsAscii) (hdir : s.localUsers.named u = none)
    (hkept : RoleKept env s u values)
    (hdiffers : sameNames env ((groupNames values).map fun n => n.cut.1) (directoryNames values) =
      false) :
    ((s.importGroups u LDAP values).otherGrants env u ||
        s.namesGrant env (groupNames (directoryNames values))) =
      (s.otherGrants env u || s.namesGrant env (groupNames values)) := by
  have hdiffers' : sameNames env ((s.login env u values).ldapNames u) (directoryNames values) =
      false := by
    rw [← hdiffers]
    exact sameNames_ldapNames henv
  have hsources : ((s.login env u values).importGroups u LDAP (directoryNames values)).sources =
      (s.login env u values).sources := by
    rw [(importGroups_imported _ u LDAP _).rest]
    rfl
  have hrole := hkept _ (.sync (.refl _))
  rcases login_row env s u values with ⟨row, hrow⟩
  rw [syncAccount, if_neg (by rw [hdiffers']; exact Bool.false_ne_true)] at hrole
  unfold recomputeMember role at hrole
  rw [Table.find?_update, if_pos rfl, hsources, role_withRole hrow, importGroups_rights henv,
    loginRole_of_shown henv (hkept.shown henv hdir) (membership_of_differs hdiffers)] at hrole
  rw [← Option.some.inj hrole]
  exact congrArg _ ((importGroups_imported s u LDAP values).namesGrant _).symm

/-- The role of a directory account stays the one of its login, whichever path
computes it next, exactly when the values agree. -/
theorem role_kept_iff (henv : env.FoldsAscii) (hdir : s.localUsers.named u = none) :
    RoleKept env s u values ↔ Agrees env s u values := by
  constructor
  · intro hkept
    exact ⟨hkept.shown henv hdir, hkept.readAgain henv hdir⟩
  · intro hagrees t hlater
    exact ((hagrees.roleHolds henv hdir).later henv hlater).stored

/-- A portal where nobody has signed in yet. -/
def freshPortal : Db where
  localUsers := ⟨⟨[], by decide⟩, by decide, 1, by decide⟩
  groups := ⟨[], by decide⟩
  blocked := []
  directory := []
  sources := ⟨[], by decide⟩
  owner := none
  adminGroup := none

theorem role_kept_leading_cn :
    RoleKept .ascii freshPortal "bob".toList ["cn=Admins,ou=groups,dc=x".toList] :=
  (role_kept_iff foldsAscii_ascii (by decide)).2 ⟨by decide, by decide⟩

/-- A group inside a container of the admin group's name: the login makes its member
an administrator, recomputing its group takes the right away. -/
theorem not_role_kept_nested_container :
    ¬ RoleKept .ascii freshPortal "bob".toList ["cn=users,cn=admins,dc=x".toList] := by
  intro hkept
  have hrole := hkept _ (.recompute "users".toList (.refl _))
  revert hrole
  decide

end Login

/-! ## The handlers take these paths -/

/-- A background read that finds the account's names as before, and for every other
account what was imported, is one of the later paths. -/
theorem later_syncLdapGroups {names : List Name} {groupsByLogin : Name → Option (List Name)}
    (hu : groupsByLogin (env.lower u) = some names)
    (hothers : ∀ v ∈ s.accounts, v ≠ u → ∀ ns, groupsByLogin (env.lower v) = some ns →
      sameNames env (s.ldapNames v) ns = true) :
    Later env u names s (s.syncLdapGroups env groupsByLogin) := by
  unfold syncLdapGroups
  -- along the loop, the memberships of the other accounts are those of `s`
  have hloop : ∀ (vs : List Name) (t : Db), (∀ v ∈ vs, v ∈ s.accounts) → Later env u names s t →
      (∀ d, d.username ≠ u → (d ∈ t.directory ↔ d ∈ s.directory)) →
      Later env u names s (vs.foldl (fun t v => t.syncRound env groupsByLogin v) t) := by
    intro vs
    induction vs with
    | nil => exact fun t _ h _ => h
    | cons v vs ih =>
      intro t hvs h hdir
      rw [List.foldl_cons]
      have hvs' : ∀ w ∈ vs, w ∈ s.accounts := fun w hw => hvs w (List.mem_cons_of_mem _ hw)
      by_cases hv : v = u
      · subst hv
        have hround : t.syncRound env groupsByLogin v = t.syncAccount env v names := by
          unfold syncRound
          rw [hu]
        rw [hround]
        refine ih _ hvs' h.sync ?_
        intro d hd
        unfold syncAccount
        split
        · exact hdir d hd
        · show d ∈ (t.importGroups v LDAP names).directory ↔ _
          rw [(importGroups_imported t v LDAP names).directory, mem_deleteSource, hdir d hd]
          constructor
          · rintro (hmem | ⟨he, -⟩)
            · exact hmem.1
            · exact absurd he hd
          · exact fun hmem => .inl ⟨hmem, fun e => hd e.1⟩
      · have hround : t.syncRound env groupsByLogin v = t := by
          unfold syncRound
          split
          · rfl
          · next ns hns =>
              have hsame : sameNames env (t.ldapNames v) ns = true := by
                rw [sameNames_congr fun d hd => hdir d (hd ▸ hv)]
                exact hothers v (hvs v List.mem_cons_self) hv ns hns
              rw [syncAccount, if_pos hsame]
        rw [hround]
        exact ih t hvs' h hdir
  exact hloop s.accounts s (fun _ hv => hv) (.refl s) (fun _ _ => Iff.rfl)

/-- Writing a group that exists, with the flag it has, changes a quota only. -/
theorem unchanged_writeGroup {name : GroupName} {g : Group} (budget : Option Nat)
    (hdir : s.localUsers.named u = none) (hg : g ∈ s.groups.rows) (hname : g.name = name.1) :
    Unchanged u s (s.writeGroup name budget g.isAdmin) := by
  have hfind : s.groups.find? name.1 = some g := hname ▸ Table.find?_of_mem hg
  have hrows : (s.writeGroup name budget g.isAdmin).groups.rows =
      s.groups.rows.map fun q =>
        if q.name = name.1 then { q with maxBudget := budget, isAdmin := g.isAdmin } else q := by
    unfold writeGroup Table.upsert
    simp only
    rw [dif_neg (by rw [hfind]; exact Option.some_ne_none g), Table.update_rows]
  -- row by row, the name and the flag stay
  have hflag : ∀ q ∈ s.groups.rows, (if q.name = name.1 then
      { q with maxBudget := budget, isAdmin := g.isAdmin } else q).isAdmin = q.isAdmin := by
    intro q hq
    split
    · next hq' =>
        have hq'' := Table.find?_of_mem hq
        rw [hq', hfind] at hq''
        rw [Option.some.inj hq'']
    · rfl
  refine ⟨hdir, rfl, rfl, fun _ _ => Iff.rfl, ?_, ?_⟩
  · intro d _ _
    have hupsert : (s.writeGroup name budget g.isAdmin).groups.find? d.groupName = _ :=
      Table.find?_upsert
    rw [hupsert]
    by_cases hd : d.groupName = name.1
    · rw [if_pos hd, hd, hfind]
      rfl
    · rw [if_neg hd]
  · intro n
    unfold mergesInto
    rw [hrows, List.find?_map]
    have hpred : ((fun q : Group => decide (sqlLower q.name = sqlLower n)) ∘ fun q =>
        if q.name = name.1 then { q with maxBudget := budget, isAdmin := g.isAdmin } else q) =
        fun q => decide (sqlLower q.name = sqlLower n) := by
      funext q
      simp only [Function.comp_apply]
      split <;> rfl
    rw [hpred]
    cases hfound : s.groups.rows.find? fun q => decide (sqlLower q.name = sqlLower n) with
    | none => rfl
    | some q =>
      rw [Option.map_some, Option.any_some, Option.any_some]
      exact hflag q (List.mem_of_find?_eq_some hfound)

/-- Editing the quota of a group, its flag as it was, is one of the later paths. -/
theorem later_adminGroupsCreate {names : List Name} {x : Session} {form : Form} {s' : Db}
    {n : GroupName} {g : Group} (hdir : s.localUsers.named u = none)
    (hn : readGroupName env form.name = .ok n) (hg : s.mergesInto n = some g)
    (hflag : truthyFlag form.isAdmin = g.isAdmin)
    (h : s.adminGroupsCreate env x form = .ok s') : Later env u names s s' := by
  have hcanon : (s.canonicalName n).1 = g.name := by
    unfold mergesInto at hg
    unfold canonicalName
    rw [hg]
  unfold adminGroupsCreate at h
  simp only [bind_eq_ok, refuseIf_eq_ok] at h
  rcases h with ⟨_, -, name, hname, budget, -, _, -, h⟩
  cases h
  obtain rfl : n = name := by
    rw [hn] at hname
    exact Except.ok.inj hname
  rw [hflag]
  have hmem : g ∈ s.groups.rows := List.mem_of_find?_eq_some hg
  exact .recompute _ (.unrelated (.refl s) (unchanged_writeGroup budget hdir hmem hcanon.symm))

end Portal.Accounts
