import DgxPlatform.Portal.AccountHandlers

/-! # The admin right of a directory account

At an LDAP login the role is computed twice over: `is_admin_group` looks for the
admin group in every component of each `memberOf` value, and `rights_from_groups`
asks the groups that `import_groups` has just made of the same values: the leading
`cn` of each, cut at 80 characters and merged into an existing group whatever the
case. Later, `recompute_members` and `sync_ldap_groups` have only the second.
-/

namespace Portal.Accounts

/-! ## Reading `memberOf` -/

/-- One component of the name is exactly `cn=<admin group>`. -/
def isAdminGroup (env : Env) (dn adminGroup : Name) : Bool :=
  let group := env.lower (Text.trim adminGroup)
  decide (group ≠ []) && (dn.splitOn ',').any fun part =>
    -- a part without `=` has no value, so it is no `cn=…`
    let (attr, val) := (Text.splitOnce ['='] (Text.trim part)).getD (part, [])
    decide (sqlLower (Text.trim attr) = "cn".toList) && decide (env.lower (Text.trim val) = group)

/-- A name that is not empty, if it is one. -/
def nonEmpty (n : Name) : Option GroupName := if h : n ≠ [] then some ⟨n, h⟩ else none

/-- One value of `memberOf` reduced to its `cn`: a distinguished name has it in its
leading component, a plain name is kept as it is. -/
def groupName (v : Name) : Option GroupName :=
  let v := Text.trim v
  let head := (v.splitOn ',').headD []
  if '=' ∈ head then
    let (attr, val) := (Text.splitOnce ['='] head).getD ([], [])
    -- a distinguished name that does not begin with `cn` names no group
    if sqlLower (Text.trim attr) = "cn".toList then nonEmpty (Text.trim val) else none
  else nonEmpty v

/-- `memberOf` values reduced to their names, each once. -/
def groupNames (values : List Name) : List GroupName :=
  values.foldl (fun names v =>
    match groupName v with
    | some n => if n ∈ names then names else names ++ [n]
    | none => names) []

/-- `name.chars().take(80)`. -/
def GroupName.cut (n : GroupName) : GroupName :=
  ⟨n.1.take 80, by
    rcases n with ⟨_ | ⟨c, t⟩, h⟩
    · exact absurd rfl h
    · exact List.cons_ne_nil _ _⟩

/-! ## Importing -/

/-- A group that an import makes: no quota, no right. -/
def Group.imported (n : GroupName) : Group := ⟨n, none, false, GroupName.named n⟩

namespace Db

variable (env : Env) (s : Db)

/-- `SELECT name FROM user_groups WHERE lower(name)=lower(?)`. -/
def mergesInto (n : Name) : Option Group := s.groups.rows.find? fun g => sqlLower g.name = sqlLower n

/-- `INSERT INTO user_groups`, a failure ignored. -/
def insertGroup (n : GroupName) : Db :=
  { s with groups := s.groups.upsert (.imported n) id (fun _ => rfl) }

/-- `INSERT OR REPLACE INTO user_directory_groups`. -/
def insertMembership (d : DirectoryGroup) : Db :=
  { s with directory := if d ∈ s.directory then s.directory else s.directory ++ [d] }

/-- One name of an import: the group is created, or the existing one is meant. -/
def importGroup (username source : Name) (n : GroupName) : Db :=
  match s.mergesInto n.cut with
  | none => (s.insertGroup n.cut).insertMembership ⟨username, n.cut, source⟩
  | some g => s.insertMembership ⟨username, g.name, source⟩

/-- `DELETE FROM user_directory_groups WHERE username=? AND source=?`. -/
def deleteSource (username source : Name) : Db :=
  { s with directory := s.directory.filter fun d => ¬ (d.username = username ∧ d.source = source) }

/-- This account's groups from one source, created or merged by name whatever the
case. -/
def importGroups (username source : Name) (values : List Name) : Db :=
  (groupNames values).foldl (fun s n => s.importGroup username source n)
    (s.deleteSource username source)

/-! ## The three ways to a role -/

/-- `record_source`: the sign-in sources of an account add up, its role is the last
one. -/
def recordSource (username source : Name) (isAdmin : Bool) : Db :=
  let old := ((s.sources.find? username).bind Source.sources).getD []
  let srcs := (((old.splitOn ',').filter fun x => x ≠ []) ++ [source]).dedup
  let joined := [','].intercalate (srcs.mergeSort fun a b => !List.lex b a fun c d => c.toNat < d.toNat)
  let write (r : Source) : Source := { r with sources := some joined, lastIsAdmin := some isAdmin }
  { s with sources := s.sources.upsert ⟨username, some joined, some isAdmin⟩ write (fun _ => rfl) }

def LDAP : Name := "ldap".toList

/-- The role of an LDAP login: `authenticate`'s flag, or what the imported groups
grant. -/
def loginRole (username : Name) (values : List Name) : Bool :=
  values.any (fun v => isAdminGroup env v s.oidcAdminGroup) ||
    ((s.importGroups username LDAP values).rightsFromGroups env username).1

/-- The database after an LDAP login. -/
def login (username : Name) (values : List Name) : Db :=
  (s.importGroups username LDAP values).recordSource username LDAP (s.loginRole env username values)

end Db

/-- Two lists of names are the same set, whatever the case. -/
def sameNames (env : Env) (a b : List Name) : Bool :=
  (a.map env.lower).all (· ∈ b.map env.lower) && (b.map env.lower).all (· ∈ a.map env.lower)

namespace Db

variable (env : Env) (s : Db)

/-- `SELECT group_name FROM user_directory_groups WHERE username=? AND source='ldap'`. -/
def ldapNames (username : Name) : List Name :=
  (s.directory.filter fun d => d.username = username ∧ d.source = LDAP).map DirectoryGroup.groupName

/-- What `sync_ldap_groups` does for one account. -/
def syncAccount (username : Name) (names : List Name) : Db :=
  if sameNames env (s.ldapNames username) names then s
  else (s.importGroups username LDAP names).recomputeMember env username

/-- The directory accounts that the portal knows. -/
def accounts : List Name :=
  (s.sources.rows.map Source.username).filter fun u => (s.localUsers.named u).isNone

/-- One round of the loop of `sync_ldap_groups`. -/
def syncRound (groupsByLogin : Name → Option (List Name)) (username : Name) : Db :=
  match groupsByLogin (env.lower username) with
  | none => s
  | some names => s.syncAccount env username names

/-- `sync_ldap_groups`: the background directory read's groups applied to the
directory accounts. -/
def syncLdapGroups (groupsByLogin : Name → Option (List Name)) : Db :=
  s.accounts.foldl (fun s u => s.syncRound env groupsByLogin u) s

/-- The role that is stored. -/
def role (username : Name) : Option Bool := (s.sources.find? username).bind Source.lastIsAdmin

end Db

end Portal.Accounts
