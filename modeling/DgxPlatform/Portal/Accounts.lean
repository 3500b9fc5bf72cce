import Mathlib.Data.Rat.Defs
import DgxPlatform.Lib.Table
import DgxPlatform.Lib.Text
import DgxPlatform.Portal.Basic

/-! # Accounts, groups and their rights

The tables the account handlers work on, and the helpers they share.

* A local account (`local_users`) is an administrator by its own flag or by its
  group's (`local_is_admin`).
* A directory account has groups that were imported from its directory
  (`user_directory_groups`); `rights_from_groups` is what they grant, and
  `recompute_members` stores it in `user_sources`.
* `account_state` is what every request reads its session's role from.

A text is a list of characters. What Rust's Unicode tables and its number parser
answer are the fields of `Env`.
-/

namespace Portal.Accounts

abbrev Name := List Char

/-- Python's `str.isspace()`: Unicode white space and the separators 1C to 1F. -/
def pyIsSpace (c : Char) : Bool := Text.isWhitespace c || (0x1C ≤ c.toNat && c.toNat ≤ 0x1F)

/-- Python's `str.strip()`. -/
def pyStrip (t : Name) : Name := Text.trimMatches pyIsSpace t

/-- SQLite's `lower()`: ASCII letters only. -/
def sqlLower (t : Name) : Name := t.map Char.toLower

/-- `to_lowercase`, `to_uppercase`, `char::is_alphanumeric`, and `str::parse::<f64>`
(`none` for what is no finite number). -/
structure Env where
  lower : Name → Name
  upper : Name → Name
  alphanumeric : Char → Bool
  parse : Name → Option ℚ

/-- The environment of a deployment that only meets ASCII and whole numbers. -/
def Env.ascii : Env where
  lower := List.map Char.toLower
  upper := List.map Char.toUpper
  alphanumeric := Char.isAlphanum
  parse t := (String.ofList t).toNat?.map fun n => (n : ℚ)

/-! ## The tables -/

/-- A row of `local_users`. -/
structure LocalUser where
  id : Nat
  username : Name
  passwordHash : Name
  fullname : Option Name
  isAdmin : Bool
  group : Option Name
  maxBudget : Option Nat
  enabled : Bool
deriving DecidableEq, Repr

/-- `local_users`: ids and usernames are unique, and an id is never given twice. -/
structure Locals where
  table : Table LocalUser LocalUser.id
  usernames : (table.rows.map LocalUser.username).Nodup
  nextId : Nat
  fresh : ∀ r ∈ table.rows, r.id < nextId

/-- A row of `user_groups`. No handler writes a group without a name. -/
structure Group where
  name : Name
  maxBudget : Option Nat
  isAdmin : Bool
  named : name ≠ []

/-- A row of `user_directory_groups`: the account is in the group, says `source`. -/
structure DirectoryGroup where
  username : Name
  groupName : Name
  source : Name
deriving DecidableEq, Repr

/-- A row of `user_sources`: where an account signs in from, and the role it had
last. -/
structure Source where
  username : Name
  sources : Option Name
  lastIsAdmin : Option Bool
deriving DecidableEq, Repr

/-- `owner` is the setting `owner_username`, `adminGroup` is
`cfg_oidc_admin_group`. -/
structure Db where
  localUsers : Locals
  groups : Table Group Group.name
  blocked : List Name
  directory : List DirectoryGroup
  sources : Table Source Source.username
  owner : Option Name
  adminGroup : Option Name

namespace Locals

/-- `WHERE username=?`. -/
def named (t : Locals) (username : Name) : Option LocalUser :=
  t.table.rows.find? fun r => r.username = username

/-- `INSERT INTO local_users`: the id is the next one. -/
def insert (t : Locals) (r : LocalUser) (h : t.named r.username = none) : Locals where
  table := t.table.insert { r with id := t.nextId } (by
    -- ids below the next one are the only ones in use
    refine List.find?_eq_none.2 fun q hq => ?_
    have hlt := t.fresh q hq
    simpa using Nat.ne_of_lt hlt)
  usernames := by
    show ((t.table.rows ++ [{ r with id := t.nextId }]).map LocalUser.username).Nodup
    rw [List.map_append, List.nodup_append]
    refine ⟨t.usernames, by simp, ?_⟩
    intro a ha b hb hab
    rcases List.mem_map.1 ha with ⟨q, hq, rfl⟩
    have hkey : q.username = r.username := hab.trans (by simpa using hb)
    simpa [hkey] using List.find?_eq_none.1 h q hq
  nextId := t.nextId + 1
  fresh := by
    intro q hq
    rcases List.mem_append.1 hq with hq | hq
    · exact Nat.lt_succ_of_lt (t.fresh q hq)
    · rw [List.mem_singleton.1 hq]
      exact Nat.lt_succ_self _

/-- `UPDATE local_users SET …`: neither the id nor the username of a row changes. -/
def updateWhere (t : Locals) (p : LocalUser → Bool) (f : LocalUser → LocalUser)
    (hid : ∀ r, (f r).id = r.id) (hname : ∀ r, (f r).username = r.username) : Locals where
  table := t.table.updateWhere p f hid
  usernames := (Table.updateWhere ⟨t.table.rows, t.usernames⟩ p f hname).nodup
  nextId := t.nextId
  fresh := by
    intro q hq
    rcases List.mem_map.1 hq with ⟨r, hr, rfl⟩
    have hlt := t.fresh r hr
    split
    · rw [hid]
      exact hlt
    · exact hlt

/-- `DELETE FROM local_users WHERE …`. -/
def delete (t : Locals) (p : LocalUser → Bool) : Locals where
  table := t.table.delete p
  usernames := t.usernames.sublist (List.filter_sublist.map LocalUser.username)
  nextId := t.nextId
  fresh q hq := t.fresh q (List.mem_of_mem_filter hq)

end Locals

/-! ## Local administrators -/

namespace Db

variable (s : Db)

/-- The group of exactly that name; no name and the empty name name none. -/
def localGroup (name : Option Name) : Option Group :=
  (name.filter fun n => n ≠ []).bind s.groups.find?

/-- `admin_groups::local_is_admin`: its own flag, or its group's. -/
def localIsAdmin (row : LocalUser) : Bool :=
  row.isAdmin || (s.localGroup row.group).any Group.isAdmin

/-- `WHERE enabled=1 AND username NOT IN (SELECT username FROM blocked_users)`. -/
def active : List LocalUser :=
  s.localUsers.table.rows.filter fun r => r.enabled && decide (r.username ∉ s.blocked)

/-- The enabled, unblocked local admins left once these accounts lose every admin
right. -/
def localAdminsWithout (removed : List Name) : Nat :=
  s.active.countP fun r => decide (r.username ∉ removed) && s.localIsAdmin r

/-- No other enabled, unblocked local admin. -/
def lastLocalAdmin (username : Name) : Bool :=
  s.active.all fun r => !(decide (r.username ≠ username) && s.localIsAdmin r)

/-! ## Who is asking -/

end Db

/-- What `account_state` decides on. -/
structure AccountFacts where
  blocked : Bool
  localAccount : Option (Bool × Bool)
  isOwner : Bool
  lastIsAdmin : Option Bool
deriving DecidableEq, Repr

/-- `some role` when the account holds (no role: the session's own is kept),
`none` when the session must be dropped. A local account is its `enabled` and its
admin right. -/
def accountState (facts : AccountFacts) : Option (Option Bool) :=
  if facts.blocked then none
  else
    match facts.localAccount with
    | some (enabled, isAdmin) => if enabled then some (some isAdmin) else none
    | none => if facts.isOwner then some (some true) else some facts.lastIsAdmin

/-- The account and the role a session was opened with. -/
structure Session where
  username : Name
  isAdmin : Bool
deriving DecidableEq, Repr

namespace Db

variable (s : Db)

/-- `get_setting_set("owner_username")`: a blank value counts as unset. -/
def ownerUsername : Option Name := (s.owner.map Text.trim).filter fun v => v ≠ []

/-- The group's flag comes by a join on the name, not by `local_group`. -/
def getAccountFacts (username : Name) : AccountFacts where
  blocked := username ∈ s.blocked
  localAccount := (s.localUsers.named username).map fun r =>
    (r.enabled, r.isAdmin || (r.group.bind s.groups.find?).any Group.isAdmin)
  isOwner := s.ownerUsername = some username
  lastIsAdmin := (s.sources.find? username).bind Source.lastIsAdmin

/-- The session as the request sees it, its role read afresh. -/
def requireSession (x : Session) : Option Session :=
  if x.username = [] then none
  else
    (accountState (s.getAccountFacts x.username)).map fun role =>
      { x with isAdmin := role.getD x.isAdmin }

/-- Signed out: the login page; not an admin: the home page. -/
def adminGuard (x : Session) : Except Refusal Session :=
  match s.requireSession x with
  | none => .error ⟨"/login", 302⟩
  | some x => if x.isAdmin then .ok x else .error ⟨"/", 302⟩

/-- The owner is out of other admins' reach. -/
def ownerProtected (x : Session) (username : Name) : Except Refusal Unit :=
  refuseIf (s.ownerUsername = some username ∧ x.username ≠ username)
    ⟨"Ce compte est le propriétaire de l'instance : seul lui-même peut le modifier.", 403⟩

/-! ## Directory members -/

/-- Stored and not empty, else « admins ». -/
def oidcAdminGroup : Name := (s.adminGroup.filter fun v => v ≠ []).getD "admins".toList

/-- The groups `rights_from_groups` reads: those whose name is one of the account's
directory groups'. -/
def directoryGroupsOf (username : Name) : List Group :=
  s.groups.rows.filter fun g =>
    s.directory.any fun d => decide (d.username = username) && decide (d.groupName = g.name)

/-- The admin right and the most generous quota that the account's directory groups
grant. -/
def rightsFromGroups (env : Env) (username : Name) : Bool × Option Nat :=
  let groups := s.directoryGroupsOf username
  let adminGroup := env.lower (pyStrip s.oidcAdminGroup)
  let isAdmin := groups.any fun g =>
    g.isAdmin || (decide (adminGroup ≠ []) && decide (env.lower g.name = adminGroup))
  let quota := (groups.filterMap Group.maxBudget).foldl
    (fun m q => some (m.elim q fun m => max m q)) none
  (isAdmin, quota)

end Db

/-- `SET last_is_admin=?`. -/
def Source.withRole (role : Bool) (r : Source) : Source := { r with lastIsAdmin := some role }

theorem Source.username_withRole (role : Bool) (r : Source) :
    (r.withRole role).username = r.username := rfl

namespace Db

variable (env : Env) (s : Db)

/-- The right of one directory member follows its groups now. -/
def recomputeMember (username : Name) : Db :=
  let role := (s.rightsFromGroups env username).1
  { s with sources := s.sources.update username (.withRole role) (Source.username_withRole role) }

/-- The directory accounts of a group, whatever the case of its name. -/
def directoryMembers (group : Name) : List Name :=
  ((s.directory.filter fun d => decide (sqlLower d.groupName = sqlLower group) &&
    (s.localUsers.named d.username).isNone).map DirectoryGroup.username).dedup

/-- `recompute_members`: its directory members' right follows now. -/
def recomputeMembers (group : Name) : Db :=
  (s.directoryMembers group).foldl (recomputeMember env) s

/-- A purge of the account's rows, as far as this model has their tables. -/
def purgeData (username : Name) : Db :=
  { s with
    directory := s.directory.filter fun d => d.username ≠ username
    sources := s.sources.delete fun r => r.username = username }

/-- Only `user_sources` is written, and there the role of the group's directory
members. -/
theorem recomputeMembers_eq (group : Name) :
    ∃ sources, s.recomputeMembers env group = { s with sources := sources } ∧
      ∀ u, sources.find? u =
        if u ∈ s.directoryMembers group then
          (s.sources.find? u).map (.withRole (s.rightsFromGroups env u).1)
        else s.sources.find? u := by
  unfold recomputeMembers
  generalize s.directoryMembers group = members
  induction members using List.reverseRecOn with
  | nil => exact ⟨s.sources, rfl, by simp⟩
  | append_singleton members v ih =>
    rcases ih with ⟨sources, heq, hfind⟩
    rw [List.foldl_append, heq]
    refine ⟨_, rfl, ?_⟩
    intro u
    -- the groups are as before, so the role written for `v` is the one they grant in `s`
    rw [Table.find?_update]
    by_cases hu : u = v
    · subst hu
      rw [if_pos rfl, if_pos (by simp), hfind]
      split
      · rw [Option.map_map]
        rfl
      · rfl
    · rw [if_neg hu, hfind]
      simp [hu]

end Db

end Portal.Accounts
