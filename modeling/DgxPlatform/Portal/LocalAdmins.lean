import DgxPlatform.Portal.AccountHandlers

/-! # The portal never loses its last local administrator

The right of a local account comes from two places, its own flag and its group's,
and eight handlers can take it away. Each looks at the rows before its change.

* `LocalAdmin` is the right itself; `local_admins_without` and `last_local_admin`
  are what the guards compute of it (`localAdminsWithout_eq_zero`,
  `lastLocalAdmin_eq_true`).
* One lemma per handler (`…_keeps`): either an administrator that the handler does
  not touch is left, or the guards have seen to it that the touched one stays one.
-/

namespace Portal.Accounts

open Db

/-- An enabled, unblocked local account whose own flag or whose group's is set. -/
def Db.LocalAdmin (s : Db) (r : LocalUser) : Prop :=
  r ∈ s.localUsers.table.rows ∧ r.enabled = true ∧ r.username ∉ s.blocked ∧
    (r.isAdmin = true ∨ ∃ g ∈ s.groups.rows, r.group = some g.name ∧ g.isAdmin = true)

instance (s : Db) (r : LocalUser) : Decidable (s.LocalAdmin r) :=
  inferInstanceAs (Decidable (r ∈ s.localUsers.table.rows ∧ r.enabled = true ∧
    r.username ∉ s.blocked ∧
      (r.isAdmin = true ∨ ∃ g ∈ s.groups.rows, r.group = some g.name ∧ g.isAdmin = true)))

/-- There is a local administrator. -/
def Db.Administered (s : Db) : Prop := ∃ r, s.LocalAdmin r

variable {env : Env} {s s' : Db} {r : LocalUser} {x x' : Session} {username : Name}

/-! ## What the guards compute -/

theorem localGroup_any {group : Option Name} : (s.localGroup group).any Group.isAdmin = true ↔
      ∃ g ∈ s.groups.rows, group = some g.name ∧ g.isAdmin = true := by
  rw [Option.any_eq_true]
  unfold localGroup
  constructor
  · rintro ⟨g, hg, hadmin⟩
    rcases Option.bind_eq_some_iff.1 hg with ⟨n, hn, hfind⟩
    rcases Option.filter_eq_some_iff.1 hn with ⟨rfl, -⟩
    exact ⟨g, Table.mem_of_find? hfind, by rw [Table.key_of_find? hfind], hadmin⟩
  · rintro ⟨g, hg, rfl, hadmin⟩
    have hfilter : (some g.name).filter (fun n => n ≠ []) = some g.name :=
      Option.filter_some_pos (by simpa using g.named)
    exact ⟨g, by rw [hfilter]; exact Table.find?_of_mem hg, hadmin⟩

theorem localIsAdmin_eq_true : s.localIsAdmin r = true ↔
      r.isAdmin = true ∨ ∃ g ∈ s.groups.rows, r.group = some g.name ∧ g.isAdmin = true := by
  unfold localIsAdmin
  rw [Bool.or_eq_true, localGroup_any]

theorem localAdmin_iff : s.LocalAdmin r ↔ r ∈ s.active ∧ s.localIsAdmin r = true := by
  unfold LocalAdmin active
  rw [localIsAdmin_eq_true, List.mem_filter]
  simp only [Bool.and_eq_true, decide_eq_true_eq, and_assoc]

/-- The count of a guard is zero when every administrator is among the accounts that
would lose the right. -/
theorem localAdminsWithout_eq_zero {removed : List Name} :
    s.localAdminsWithout removed = 0 ↔ ∀ r, s.LocalAdmin r → r.username ∈ removed := by
  unfold localAdminsWithout
  rw [List.countP_eq_zero]
  constructor
  · intro h r hr
    rcases localAdmin_iff.1 hr with ⟨hmem, hadmin⟩
    simpa [hadmin] using h r hmem
  · intro h r hmem hcount
    rw [Bool.and_eq_true, decide_eq_true_eq] at hcount
    exact hcount.1 (h r (localAdmin_iff.2 ⟨hmem, hcount.2⟩))

theorem lastLocalAdmin_eq_true {username : Name} :
    s.lastLocalAdmin username = true ↔ ∀ r, s.LocalAdmin r → r.username = username := by
  unfold lastLocalAdmin
  rw [List.all_eq_true]
  constructor
  · intro h r hr
    rcases localAdmin_iff.1 hr with ⟨hmem, hadmin⟩
    simpa [hadmin] using h r hmem
  · intro h r hmem
    by_cases hadmin : s.localIsAdmin r = true
    · simp [h r (localAdmin_iff.2 ⟨hmem, hadmin⟩)]
    · simp [hadmin]

/-! ## The frame -/

/-- An administrator stays one as long as its row stays, it is not blocked, and the
group its right comes from keeps its flag. -/
theorem Db.LocalAdmin.kept (h : s.LocalAdmin r) (hrow : r ∈ s'.localUsers.table.rows)
    (hblocked : r.username ∉ s'.blocked)
    (hgroup : ∀ g ∈ s.groups.rows, r.group = some g.name → g.isAdmin = true →
      ∃ g' ∈ s'.groups.rows, g'.name = g.name ∧ g'.isAdmin = true) : s'.Administered := by
  rcases h with ⟨-, henabled, -, hright⟩
  refine ⟨r, hrow, henabled, hblocked, ?_⟩
  rcases hright with hown | ⟨g, hg, hname, hadmin⟩
  · exact .inl hown
  · rcases hgroup g hg hname hadmin with ⟨g', hg', hn, ha⟩
    exact .inr ⟨g', hg', by rw [hn, hname], ha⟩

theorem administered_recomputeMembers {group : Name} :
    (s.recomputeMembers env group).Administered ↔ s.Administered := by
  rcases recomputeMembers_eq env s group with ⟨sources, h, -⟩
  rw [h]
  exact Iff.rfl

theorem administered_purgeData {username : Name} :
    (s.purgeData username).Administered ↔ s.Administered := Iff.rfl

/-! ## Creating, unblocking: nobody loses anything -/

theorem refuseSome_eq_ok {code : Nat} {message : Option String} {u : Unit} :
    refuseSome code message = .ok u ↔ message = none := by
  cases message <;> simp [refuseSome]

theorem orRefuse_eq_ok {α : Type} {refusal : Refusal} {o : Option α} {a : α} :
    orRefuse refusal o = .ok a ↔ o = some a := by
  cases o <;> simp [orRefuse]

variable {form : Form} {hash : Option Name}

theorem adminUsersCreate_keeps (h : s.adminUsersCreate env x form hash = .ok s') (hs : s.Administered) :
    s'.Administered := by
  unfold adminUsersCreate at h
  simp only [bind_eq_ok] at h
  rcases h with ⟨_, -, _, -, _, -, h⟩
  split at h
  · cases h
  · simp only [bind_eq_ok] at h
    rcases h with ⟨group, -, budget, -, hash, -, h⟩
    cases h
    rcases hs with ⟨r, hr⟩
    refine hr.kept (List.mem_append_left _ hr.1) hr.2.2.1 ?_
    intro g hg _ hadmin
    exact ⟨g, hg, rfl, hadmin⟩

theorem adminUnblock_keeps {username : Name} (h : s.adminUnblock x username = .ok s')
    (hs : s.Administered) : s'.Administered := by
  unfold adminUnblock at h
  simp only [bind_eq_ok] at h
  rcases h with ⟨_, -, _, -, h⟩
  cases h
  rcases hs with ⟨r, hr⟩
  refine hr.kept hr.1 (fun hmem => hr.2.2.1 (List.mem_of_mem_filter hmem)) ?_
  intro g hg _ hadmin
  exact ⟨g, hg, rfl, hadmin⟩

/-! ## Updating one row -/

variable {row : LocalUser}

theorem removalRefusal_eq_none {me : Name} {action : String}
    (h : s.removalRefusal me row action = none) (hrow : s.LocalAdmin row) :
    ∃ r, s.LocalAdmin r ∧ r.username ≠ row.username := by
  unfold removalRefusal at h
  rw [if_neg (by simp [(localAdmin_iff.1 hrow).2])] at h
  split at h
  · cases h
  · split at h
    · cases h
    · next hcount =>
        rw [localAdminsWithout_eq_zero] at hcount
        push Not at hcount
        rcases hcount with ⟨r, hr, hne⟩
        exact ⟨r, hr, by simpa using hne⟩

theorem newGroup_ok {me : Name} {v : Option Name} {group : Option (Option Name)}
    (h : s.newGroup me row v = .ok group) :
    s.removalRefusal me row "retirer du groupe administrateur" = none ∨
      (group = none ∨ row.isAdmin = true ∨
        (s.localGroup (group.getD none)).any Group.isAdmin = true) := by
  unfold newGroup at h
  split at h
  · cases h
    exact .inr (.inl rfl)
  · rcases bind_eq_ok.1 h with ⟨g, -, h⟩
    split at h
    · next hkeeps =>
        cases h
        exact .inr (.inr hkeeps)
    · rcases bind_eq_ok.1 h with ⟨_, hrefusal, -⟩
      exact .inl (refuseSome_eq_ok.1 hrefusal)

theorem newFlag_ok {me : Name} {action : String} {v : Option Name}
    {flag : Option Bool} (h : s.newFlag me row action v = .ok flag) :
    flag ≠ some false ∨ s.removalRefusal me row action = none := by
  unfold newFlag at h
  split at h
  · cases h
    exact .inl (by simp)
  · split at h
    · cases h
      exact .inl (by simp)
    · rcases bind_eq_ok.1 h with ⟨_, hrefusal, -⟩
      exact .inr (refuseSome_eq_ok.1 hrefusal)

/-- A form that takes nothing away from an administrator leaves it one: the checks
of the fields, made against the row before, cover their combined effect. -/
theorem localAdmin_apply {c : Changes} (hrow : s.LocalAdmin row) (hgroup : c.group = none ∨ row.isAdmin = true ∨
      (s.localGroup (c.group.getD none)).any Group.isAdmin = true)
    (hadmin : c.isAdmin ≠ some false) (henabled : c.enabled ≠ some false)
    (hmem : c.apply row ∈ s'.localUsers.table.rows) (hblocked : s'.blocked = s.blocked)
    (hgroups : s'.groups = s.groups) : s'.LocalAdmin (c.apply row) := by
  have hflag : ∀ {o : Option Bool} {b : Bool}, o ≠ some false → b = true → o.getD b = true := by
    intro o b ho hb
    rcases o with - | - | -
    · exact hb
    · exact absurd rfl ho
    · rfl
  refine ⟨hmem, hflag henabled hrow.2.1, by rw [hblocked]; exact hrow.2.2.1, ?_⟩
  rcases hrow.2.2.2 with hown | hright
  · exact .inl (hflag hadmin hown)
  · -- the right comes from the group: it stays in it, is an admin itself, or the new one grants it
    rw [hgroups]
    rcases hgroup with hnone | hown | hnew
    · have hsame : (c.apply row).group = row.group := by simp [Changes.apply, hnone]
      exact .inr (by rw [hsame]; exact hright)
    · exact .inl (hflag hadmin hown)
    · rcases hc : c.group with - | group
      · have hsame : (c.apply row).group = row.group := by simp [Changes.apply, hc]
        exact .inr (by rw [hsame]; exact hright)
      · have hsame : (c.apply row).group = c.group.getD none := by simp [Changes.apply, hc]
        exact .inr (by rw [hsame]; exact localGroup_any.1 hnew)

/-- What an accepted update has checked, and the row it has written. -/
theorem adminUsersUpdate_ok {uid : Name} (h : s.adminUsersUpdate env x uid form hash = .ok s') :
    ∃ (id : Nat) (row : LocalUser) (me : Name) (c : Changes),
      s.localUsers.table.find? id = some row ∧
      s.newGroup me row form.group = .ok c.group ∧
      s.newFlag me row "rétrograder" form.isAdmin = .ok c.isAdmin ∧
      s.newFlag me row "désactiver" form.enabled = .ok c.enabled ∧
      s'.blocked = s.blocked ∧ s'.groups = s.groups ∧
      s'.localUsers.table.rows =
        s.localUsers.table.rows.map fun r => if r.id = id then c.apply r else r := by
  unfold adminUsersUpdate at h
  simp only [bind_eq_ok, orRefuse_eq_ok] at h
  rcases h with ⟨id, -, x, -, row, hfind, _, -, passwordHash, -, group, hgroup, maxBudget, -,
    isAdmin, hadmin, enabled, henabled, h⟩
  cases h
  refine ⟨id, row, x.username,
    ⟨passwordHash, group, maxBudget, isAdmin, enabled, newFullname form.fullname⟩, hfind, hgroup,
    hadmin, henabled, rfl, rfl, ?_⟩
  simp [Locals.updateWhere, Table.updateWhere]

theorem adminUsersUpdate_keeps {uid : Name}
    (h : s.adminUsersUpdate env x uid form hash = .ok s') (hs : s.Administered) :
    s'.Administered := by
  rcases adminUsersUpdate_ok h with ⟨id, row, me, c, hfind, hgroup, hadmin, henabled, hblocked,
    hgroups, hrows⟩
  -- an administrator with another id is not touched
  have hother : ∀ r, s.LocalAdmin r → r.id ≠ id → s'.Administered := by
    intro r hr hid
    refine hr.kept ?_ (by rw [hblocked]; exact hr.2.2.1) ?_
    · rw [hrows]
      exact List.mem_map.2 ⟨r, hr.1, if_neg hid⟩
    · intro g hg _ hflag
      exact ⟨g, by rw [hgroups]; exact hg, rfl, hflag⟩
  -- the administrator with this id is the row that was found
  have hsame : ∀ r, s.LocalAdmin r → r.id = id → r = row := by
    intro r hr hid
    have hr' := Table.find?_of_mem hr.1
    rw [hid, hfind] at hr'
    exact (Option.some.inj hr').symm
  rcases hs with ⟨r, hr⟩
  by_cases hid : r.id = id
  · obtain rfl := hsame r hr hid
    -- a check that was made and passed has found another administrator
    have hchecked : ∀ {action}, s.removalRefusal me r action = none → s'.Administered := by
      intro action hnone
      rcases removalRefusal_eq_none hnone hr with ⟨q, hq, hne⟩
      exact hother q hq fun hqid => hne (by rw [hsame q hq hqid])
    have hmem : c.apply r ∈ s'.localUsers.table.rows := by
      rw [hrows]
      exact List.mem_map.2 ⟨r, hr.1, if_pos hid⟩
    rcases newFlag_ok hadmin with hadmin | hnone
    · rcases newFlag_ok henabled with henabled | hnone
      · rcases newGroup_ok hgroup with hnone | hgroup
        · exact hchecked hnone
        · exact ⟨_, localAdmin_apply hr hgroup hadmin henabled hmem hblocked hgroups⟩
      · exact hchecked hnone
    · exact hchecked hnone
  · exact hother r hr hid

/-! ## Deleting and blocking an account -/

/-- Where the last administrator is not the account `username`, another one is
left. -/
theorem exists_other (h : s.lastLocalAdmin username ≠ true) : ∃ r, s.LocalAdmin r ∧ r.username ≠ username := by
  rw [Ne, lastLocalAdmin_eq_true] at h
  push Not at h
  exact h

theorem Db.LocalAdmin.kept_delete {p : LocalUser → Bool} (hr : s.LocalAdmin r) (hp : p r = false) :
    Db.Administered { s with localUsers := s.localUsers.delete p } := by
  refine hr.kept (List.mem_filter.2 ⟨hr.1, by simp [hp]⟩) hr.2.2.1 ?_
  intro g hg _ hadmin
  exact ⟨g, hg, rfl, hadmin⟩

theorem adminUsersDelete_keeps {uid : Name} {confirm : Option Name}
    (h : s.adminUsersDelete env x uid confirm = .ok s') (hs : s.Administered) :
    s'.Administered := by
  unfold adminUsersDelete at h
  simp only [bind_eq_ok, orRefuse_eq_ok, refuseIf_eq_ok] at h
  rcases h with ⟨id, -, x, -, row, hfind, _, -, _, -, _, hguard, _, -, h⟩
  cases h
  rw [administered_purgeData]
  rcases hs with ⟨r, hr⟩
  by_cases hid : r.id = id
  · -- the administrator is the deleted row: the guard has found another
    obtain rfl : row = r := by
      have hr' := Table.find?_of_mem hr.1
      rw [hid, hfind] at hr'
      exact Option.some.inj hr'
    have hlast : s.lastLocalAdmin row.username ≠ true :=
      fun hlast => hguard ⟨(localAdmin_iff.1 hr).2, hlast⟩
    rcases exists_other hlast with ⟨q, hq, hne⟩
    have hqid : q.id ≠ id := by
      intro hqid
      have hq' := Table.find?_of_mem hq.1
      rw [hqid, hfind] at hq'
      exact hne (by rw [Option.some.inj hq'])
    exact hq.kept_delete (by simpa using hqid)
  · exact hr.kept_delete (by simpa using hid)

theorem named_of_mem (hr : r ∈ s.localUsers.table.rows) : s.localUsers.named r.username = some r :=
  Table.find?_of_mem (t := ⟨s.localUsers.table.rows, s.localUsers.usernames⟩) hr

theorem requireSession_isAdmin (h : s.requireSession x = some x') (hr : s.LocalAdmin r)
    (hx : r.username = x'.username) : x'.isAdmin = true := by
  rcases hr with ⟨hmem, henabled, hblocked, hright⟩
  unfold requireSession at h
  split at h
  · cases h
  · rcases Option.map_eq_some_iff.1 h with ⟨role, hrole, rfl⟩
    -- the join on the name finds the group that `local_group` finds
    have hjoin : (r.isAdmin || (r.group.bind s.groups.find?).any Group.isAdmin) = true := by
      rcases hright with hown | ⟨g, hg, hgroup, hadmin⟩
      · rw [hown, Bool.true_or]
      · rw [hgroup, Option.bind_some, Table.find?_of_mem hg, Option.any_some, hadmin, Bool.or_true]
    have hlocal : s.localUsers.named x.username = some r := hx ▸ named_of_mem hmem
    have hfacts : accountState (s.getAccountFacts x.username) = some (some true) := by
      have hb : x.username ∉ s.blocked := hx ▸ hblocked
      simp [accountState, getAccountFacts, hb, hlocal, henabled, hjoin]
    rw [hfacts] at hrole
    cases hrole
    rfl

theorem apiAccountDelete_keeps {confirm password : Option Name} {verified : Option Refusal}
    (h : s.apiAccountDelete env x confirm password verified = .ok s') (hs : s.Administered) :
    s'.Administered := by
  unfold apiAccountDelete at h
  simp only [bind_eq_ok, orRefuse_eq_ok, refuseIf_eq_ok] at h
  rcases h with ⟨x', hsession, _, -, _, hguard, _, -, _, -, h⟩
  rcases hs with ⟨r, hr⟩
  split at h
  · next hlocal =>
      cases h
      rw [administered_purgeData]
      by_cases hx : r.username = x'.username
      · -- one's own account: the session is an admin's, and the guard has found another
        have hadmin : x'.isAdmin = true := requireSession_isAdmin hsession hr hx
        have hlast : s.lastLocalAdmin x'.username ≠ true :=
          fun hlast => hguard ⟨hlocal, hadmin, hlast⟩
        rcases exists_other hlast with ⟨q, hq, hne⟩
        exact hq.kept_delete (by simpa using hne)
      · exact hr.kept_delete (by simpa using hx)
  · cases h
    exact ⟨r, hr⟩

theorem adminBlock_keeps {username : Name} (h : s.adminBlock x username = .ok s')
    (hs : s.Administered) : s'.Administered := by
  unfold adminBlock at h
  simp only [bind_eq_ok, refuseIf_eq_ok] at h
  rcases h with ⟨x, -, _, -, _, -, _, -, h⟩
  split at h
  · cases h
    exact hs
  · simp only [bind_eq_ok, refuseIf_eq_ok] at h
    rcases h with ⟨_, hguard, h⟩
    cases h
    have hother : ∀ r, s.LocalAdmin r → r.username ≠ username →
        Db.Administered { s with blocked := username :: s.blocked } := by
      intro r hr hne
      refine hr.kept hr.1 ?_ fun g hg _ hadmin => ⟨g, hg, rfl, hadmin⟩
      rw [List.mem_cons]
      exact not_or.2 ⟨hne, hr.2.2.1⟩
    rcases hs with ⟨r, hr⟩
    by_cases hu : r.username = username
    · subst hu
      -- the blocked account is the administrator: the guard has found another
      have hadmin : (s.localUsers.named r.username).any
          (fun r => s.localIsAdminOf r.isAdmin r.group) = true := by
        rw [named_of_mem hr.1]
        exact (localAdmin_iff.1 hr).2
      have hlast : s.lastLocalAdmin r.username ≠ true := fun hlast => hguard ⟨hadmin, hlast⟩
      rcases exists_other hlast with ⟨q, hq, hne⟩
      exact hother q hq hne
    · exact hother r hr hu

/-! ## Changing or deleting a group -/

/-- Taking the flag from a group that does not strand the portal leaves an
administrator outside the group, unless none of its members is one. -/
theorem exists_outside {name : Name} (h : s.strandsPortal name ≠ true)
    (hflag : (s.localGroup (some name)).any Group.isAdmin = true) (hs : s.Administered) :
    ∃ r, s.LocalAdmin r ∧ r.group ≠ some name := by
  rcases hs with ⟨r, hr⟩
  by_cases hgroup : r.group = some name
  · -- the administrator is a member: the count leaves all members out
    have hmember : r ∈ s.localMembers name := List.mem_filter.2 ⟨hr.1, by simpa using hgroup⟩
    have hany : (s.localMembers name).any s.localIsAdmin = true :=
      List.any_eq_true.2 ⟨r, hmember, (localAdmin_iff.1 hr).2⟩
    have hcount : s.localAdminsWithout ((s.localMembers name).map LocalUser.username) ≠ 0 := by
      intro hzero
      exact h (by simp [strandsPortal, hflag, hany, hzero])
    rw [Ne, localAdminsWithout_eq_zero] at hcount
    push Not at hcount
    rcases hcount with ⟨q, hq, hout⟩
    refine ⟨q, hq, fun hq' => hout (List.mem_map.2 ⟨q, ?_, rfl⟩)⟩
    exact List.mem_filter.2 ⟨hq.1, by simpa using hq'⟩
  · exact ⟨r, hr, hgroup⟩

/-- The flag of a group after a write: the written one, or as it was. -/
theorem mem_writeGroup (name : GroupName) (budget : Option Nat) (isAdmin : Bool) {g : Group}
    (hg : g ∈ s.groups.rows) :
    ∃ g' ∈ (s.writeGroup name budget isAdmin).groups.rows, g'.name = g.name ∧
      g'.isAdmin = if g.name = name then isAdmin else g.isAdmin := by
  have hfind : (s.writeGroup name budget isAdmin).groups.find? g.name = _ := Table.find?_upsert
  by_cases hname : g.name = name
  · have hat : s.groups.find? name.1 = some g := hname ▸ Table.find?_of_mem hg
    rw [if_pos hname, hat] at hfind
    exact ⟨_, Table.mem_of_find? hfind, rfl, by rw [if_pos hname]; rfl⟩
  · rw [if_neg hname, Table.find?_of_mem hg] at hfind
    exact ⟨g, Table.mem_of_find? hfind, rfl, by rw [if_neg hname]⟩

theorem adminGroupsCreate_keeps (h : s.adminGroupsCreate env x form = .ok s')
    (hs : s.Administered) : s'.Administered := by
  unfold adminGroupsCreate at h
  simp only [bind_eq_ok, refuseIf_eq_ok] at h
  rcases h with ⟨_, -, name, -, budget, -, _, hguard, h⟩
  cases h
  rw [administered_recomputeMembers]
  generalize s.canonicalName name = canon at hguard ⊢
  -- whom the edited group does not make an administrator, or still does, is not touched
  have hkept : ∀ r, s.LocalAdmin r →
      (r.group = some canon.1 → (s.localGroup (some canon.1)).any Group.isAdmin = true →
        truthyFlag form.isAdmin = true) →
      (s.writeGroup canon budget (truthyFlag form.isAdmin)).Administered := by
    intro r hr hcanon
    refine hr.kept hr.1 hr.2.2.1 ?_
    intro g hg hname hadmin
    rcases mem_writeGroup canon budget (truthyFlag form.isAdmin) hg with ⟨g', hg', hn, ha⟩
    refine ⟨g', hg', hn, ?_⟩
    rw [ha]
    split
    · next he => exact hcanon (by rw [hname, he]) (localGroup_any.2 ⟨g, hg, by rw [he], hadmin⟩)
    · exact hadmin
  by_cases hflag : truthyFlag form.isAdmin = true
  · rcases hs with ⟨r, hr⟩
    exact hkept r hr fun _ _ => hflag
  · by_cases hwas : (s.localGroup (some canon.1)).any Group.isAdmin = true
    · -- the right is withdrawn: the guard was asked
      have hstrands : s.strandsPortal canon ≠ true :=
        fun hstrands => hguard ⟨by simpa using hflag, hstrands⟩
      rcases exists_outside hstrands hwas hs with ⟨r, hr, hout⟩
      exact hkept r hr fun hin => absurd hin hout
    · rcases hs with ⟨r, hr⟩
      exact hkept r hr fun _ his => absurd his hwas

theorem adminGroupsDelete_keeps {name : Name} (h : s.adminGroupsDelete env x name = .ok s')
    (hs : s.Administered) : s'.Administered := by
  unfold adminGroupsDelete at h
  simp only [bind_eq_ok, refuseIf_eq_ok] at h
  rcases h with ⟨_, -, _, hguard, h⟩
  cases h
  rw [administered_recomputeMembers]
  by_cases hwas : (s.localGroup (some name)).any Group.isAdmin = true
  · rcases exists_outside hguard hwas hs with ⟨r, hr, hout⟩
    refine hr.kept (List.mem_map.2 ⟨r, hr.1, by simp [hout]⟩) hr.2.2.1 ?_
    intro g hg hgroup hadmin
    -- an administrator outside the group has its right from elsewhere
    have hne : g.name ≠ name := fun e => hout (by rw [hgroup, e])
    exact ⟨g, List.mem_filter.2 ⟨hg, by simp [hne]⟩, rfl, hadmin⟩
  · rcases hs with ⟨r, hr⟩
    -- the group grants nothing: its members are administrators by their own flag
    have hgroup : ∀ g ∈ s.groups.rows, r.group = some g.name → g.isAdmin = true →
        g.name ≠ name := by
      intro g hg _ hadmin hname
      exact hwas (localGroup_any.2 ⟨g, hg, by rw [hname], hadmin⟩)
    by_cases hin : r.group = some name
    · have hown : r.isAdmin = true := by
        rcases hr.2.2.2 with hown | ⟨g, hg, hgr, hadmin⟩
        · exact hown
        · exact absurd (Option.some.inj (hgr.symm.trans hin)) (hgroup g hg hgr hadmin)
      -- the row loses its group and keeps its own flag
      exact ⟨clearGroup r, List.mem_map.2 ⟨r, hr.1, by simp [hin]⟩, hr.2.1, hr.2.2.1, .inl hown⟩
    · refine hr.kept (List.mem_map.2 ⟨r, hr.1, by simp [hin]⟩) hr.2.2.1 ?_
      intro g hg hgr hadmin
      exact ⟨g, List.mem_filter.2 ⟨hg, by simp [hgroup g hg hgr hadmin]⟩, rfl, hadmin⟩

/-! ## Every sequence of requests -/

theorem serve_keeps (env : Env) (a : Session × Op) (hs : s.Administered) : (s.serve env a).Administered := by
  rcases a with ⟨x, op⟩
  unfold serve
  split
  · next s' h =>
      cases op with
      | usersCreate form hash => exact adminUsersCreate_keeps h hs
      | usersUpdate uid form hash => exact adminUsersUpdate_keeps h hs
      | usersDelete uid confirm => exact adminUsersDelete_keeps h hs
      | accountDelete confirm password verified => exact apiAccountDelete_keeps h hs
      | block username => exact adminBlock_keeps h hs
      | unblock username => exact adminUnblock_keeps h hs
      | groupsCreate form => exact adminGroupsCreate_keeps h hs
      | groupsDelete name => exact adminGroupsDelete_keeps h hs
  · exact hs

/-- From every state with a local administrator, every sequence of requests leads to
one with a local administrator. -/
theorem local_admin_remains (env : Env) (s : Db) (as : List (Session × Op))
    (hs : s.Administered) : (s.serveAll env as).Administered := by
  induction as generalizing s with
  | nil => exact hs
  | cons a as ih => exact ih (s.serve env a) (serve_keeps env a hs)

def groupAdmin : LocalUser := ⟨1, "alice".toList, [], none, false, some "ops".toList, none, true⟩

/-- A portal whose only local administrator has the right from its group, and which
a directory account administers too. -/
def onlyGroupAdmin : Db where
  localUsers := ⟨⟨[groupAdmin], by decide⟩, by decide, 2, by decide⟩
  groups := ⟨[⟨"ops".toList, none, true, by decide⟩], by decide⟩
  blocked := []
  directory := []
  sources := ⟨[⟨"root".toList, some "ldap".toList, some true⟩], by decide⟩
  owner := none
  adminGroup := none

/-- The directory account tries to delete the administrator, to take the flag from
its group under another case of the name, to delete the group, and to disable the
administrator in a form that also gives it a flag of its own. -/
def rootTries : List (Session × Op) :=
  let root : Session := ⟨"root".toList, true⟩
  [(root, .usersDelete "1".toList (some "delete".toList)),
    (root, .groupsCreate { Form.empty with name := some "OPS".toList }),
    (root, .groupsDelete "ops".toList),
    (root, .usersUpdate "1".toList
      { Form.empty with isAdmin := some "1".toList, enabled := some "0".toList } none)]

theorem local_admin_remains_onlyGroupAdmin :
    onlyGroupAdmin.Administered ∧ (onlyGroupAdmin.serveAll .ascii rootTries).Administered :=
  have hadmin : onlyGroupAdmin.Administered := ⟨groupAdmin, by decide⟩
  ⟨hadmin, local_admin_remains .ascii onlyGroupAdmin rootTries hadmin⟩

end Portal.Accounts
