import DgxPlatform.Portal.Accounts

/-! # The handlers that change local accounts and groups

`admin_users_create`, `admin_users_update`, `admin_users_delete`,
`api_account_delete`, `admin_block`, `admin_unblock`, `admin_groups_create` and
`admin_groups_delete`, each run alone: a refused request is the answer, an accepted
one the database after it. The request has passed the CSRF check.

What a request brings from outside the database comes with it: the form, the
password's hash (`none` when it could not be computed) and what
`verify_password_locked` answers. The sessions and keys that are cut, the audit
lines and what goes to LiteLLM are read by none of these handlers.
-/

namespace Portal.Accounts

/-- The fields of a posted form that the handlers read, `none` when not sent. -/
structure Form where
  username : Option Name
  password : Option Name
  fullname : Option Name
  group : Option Name
  maxBudget : Option Name
  isAdmin : Option Name
  enabled : Option Name
  name : Option Name
deriving DecidableEq, Repr

def Form.empty : Form := ⟨none, none, none, none, none, none, none, none⟩

/-! ## Reading a form -/

/-- `request.form.get(key, '').strip()`. -/
def field (v : Option Name) : Name := pyStrip (v.getD [])

def truthyFlag (v : Option Name) : Bool :=
  v = some "1".toList || v = some "true".toList || v = some "on".toList

/-- `<int:uid>`: digits only, and an `i64`. -/
def intId (raw : Name) : Option Nat :=
  if raw ≠ [] ∧ raw.all Char.isDigit then
    some (raw.foldl (fun n c => 10 * n + (c.toNat - '0'.toNat)) 0) |>.filter fun n => n < 2 ^ 63
  else none

def usernameOk (u : Name) : Bool :=
  decide (1 ≤ u.length) && decide (u.length ≤ 64) &&
    u.all fun c => c.isAlphanum || c = '.' || c = '_' || c = '-'

/-- Python's `float(s)`: underscores are allowed between digits. -/
def parsePyFloat (env : Env) (t : Name) : Option ℚ :=
  let t := pyStrip t
  let digit (i : Nat) := t[i]?.any Char.isDigit
  if '_' ∈ t then
    if ∀ i ∈ List.range t.length, t[i]? = some '_' → 0 < i ∧ digit (i - 1) ∧ digit (i + 1) then
      env.parse (t.filter fun c => c ≠ '_')
    else none
  else env.parse t

def MAX_BUDGET : Nat := 1000000000000

/-- Blank: inherit; else a positive whole number. -/
def parseBudget (env : Env) (raw : Option Name) : Except Refusal (Option Nat) :=
  let raw := (pyStrip (raw.getD [])).filter fun c => c ≠ ' '
  if raw = [] then .ok none
  else
    match parsePyFloat env raw with
    | none => .error ⟨"Quota invalide.", 400⟩
    | some x =>
        let v := Int.tdiv x.num x.den
        if 0 < v ∧ v ≤ MAX_BUDGET then .ok (some v.toNat)
        else .error ⟨"Le quota doit être un entier positif, au plus 1e+12 tokens.", 400⟩

def FORBIDDEN_PASSWORDS : List Name :=
  ["password", "password1", "password123", "motdepasse", "motdepasse1", "12345678", "123456789",
    "1234567890", "azertyui", "azertyuiop", "qwertyui", "qwertyuiop", "admin123", "administrateur",
    "changeme", "dgxspark", "iloveyou", "soleil123", "00000000"].map String.toList

def passwordPolicyError (env : Env) (password username : Name) : Option String :=
  let p := env.lower password
  let u := env.lower username
  if password.length < 8 then some "Mot de passe trop court (8 caractères minimum)."
  else if p ∈ FORBIDDEN_PASSWORDS then
    some "Ce mot de passe est trop courant : choisis-en un autre."
  else if 4 ≤ u.length ∧ Text.contains p u then
    some "Le mot de passe ne doit pas contenir l'identifiant."
  else if password.dedup.length < 4 then
    some "Mot de passe trop répétitif (trop peu de caractères différents)."
  else none

/-- A message that a helper found is the answer. -/
def refuseSome (code : Nat) : Option String → Except Refusal Unit
  | some message => .error ⟨message, code⟩
  | none => .ok ()

def orRefuse {α : Type} (r : Refusal) : Option α → Except Refusal α
  | some a => .ok a
  | none => .error r

def internalError : Refusal := ⟨"", 500⟩

/-- `py_strip(c).to_uppercase() == "DELETE"`. -/
def confirmed (env : Env) (confirm : Option Name) : Bool :=
  confirm.any fun c => env.upper (pyStrip c) = "DELETE".toList

namespace Db

variable (env : Env) (s : Db)

/-! ## Local accounts -/

/-- `field(&form, "group")` when it is not empty; it must name a group. -/
def readGroup (v : Option Name) : Except Refusal (Option Name) :=
  let group := some (field v) |>.filter fun g => g ≠ []
  if group.isSome ∧ s.localGroup group = none then .error ⟨"Groupe inconnu.", 400⟩ else .ok group

/-- `POST /admin/users/create`. -/
def adminUsersCreate (x : Session) (form : Form) (hash : Option Name) : Except Refusal Db := do
  let _ ← s.adminGuard x
  let username := env.lower (field form.username)
  refuseIf (usernameOk username = false)
    ⟨"Identifiant invalide (a-z, 0-9, . _ - , max 64).", 400⟩
  refuseSome 400 (passwordPolicyError env (form.password.getD []) username)
  -- a free username is what the insert asks for
  match h : s.localUsers.named username with
  | some _ => .error ⟨"Cet utilisateur existe déjà.", 409⟩
  | none => do
      let group ← s.readGroup form.group
      let budget ← parseBudget env form.maxBudget
      let fullname := (field form.fullname).take 120
      let hash ← orRefuse internalError hash
      let row : LocalUser :=
        { id := s.localUsers.nextId
          username := username
          passwordHash := hash
          fullname := if fullname = [] then none else some fullname
          isAdmin := truthyFlag form.isAdmin
          group := group
          maxBudget := budget
          enabled := true }
      .ok { s with localUsers := s.localUsers.insert row h }

/-- Removing this account's admin right would leave nobody to administer the portal
locally. -/
def removalRefusal (me : Name) (row : LocalUser) (action : String) : Option String :=
  if s.localIsAdmin row = false then none
  else if row.username = me then
    some ("Tu ne peux pas te " ++ action ++ " toi-même : tu perdrais immédiatement l'accès à " ++
      "l'administration. Demande-le à un autre administrateur.")
  else if s.localAdminsWithout [row.username] = 0 then
    some (String.ofList row.username ++ " est le dernier administrateur local actif : le portail " ++
      "n'aurait plus personne pour l'administrer en local.")
  else none

end Db

/-- What an update writes: `none` for a column that the form does not set. -/
structure Changes where
  passwordHash : Option Name
  group : Option (Option Name)
  maxBudget : Option (Option Nat)
  isAdmin : Option Bool
  enabled : Option Bool
  fullname : Option (Option Name)
deriving DecidableEq, Repr

/-- `UPDATE local_users SET … WHERE id=?`, on the row. -/
def Changes.apply (c : Changes) (r : LocalUser) : LocalUser :=
  { r with
    passwordHash := c.passwordHash.getD r.passwordHash
    group := c.group.getD r.group
    maxBudget := c.maxBudget.getD r.maxBudget
    isAdmin := c.isAdmin.getD r.isAdmin
    enabled := c.enabled.getD r.enabled
    fullname := c.fullname.getD r.fullname }

namespace Db

variable (env : Env) (s : Db)

/-! Each field of an update is checked against the row as it was before. -/

def newPassword (row : LocalUser) (password : Name) (hash : Option Name) :
    Except Refusal (Option Name) := do
  if password = [] then .ok none
  else
    refuseSome 400 (passwordPolicyError env password row.username)
    let hash ← orRefuse internalError hash
    .ok (some hash)

def newGroup (me : Name) (row : LocalUser) (v : Option Name) :
    Except Refusal (Option (Option Name)) :=
  match v with
  | none => .ok none
  | some v => do
      let group ← s.readGroup (some v)
      -- the right does not come from the old group, or the new one grants it too
      if row.isAdmin ∨ (s.localGroup group).any Group.isAdmin then .ok (some group)
      else
        refuseSome 409 (s.removalRefusal me row "retirer du groupe administrateur")
        .ok (some group)

def newBudget (v : Option Name) : Except Refusal (Option (Option Nat)) :=
  match v with
  | none => .ok none
  | some v => (parseBudget env (some v)).map some

/-- `is_admin` and `enabled`: a flag that is taken away is a removal. -/
def newFlag (me : Name) (row : LocalUser) (action : String) (v : Option Name) :
    Except Refusal (Option Bool) :=
  match v with
  | none => .ok none
  | some v =>
      if truthyFlag (some v) then .ok (some true)
      else do
        refuseSome 409 (s.removalRefusal me row action)
        .ok (some false)

def newFullname (v : Option Name) : Option (Option Name) :=
  v.map fun v =>
    let f := (field (some v)).take 120
    if f = [] then none else some f

/-- `POST /admin/users/update/<int:uid>`. -/
def adminUsersUpdate (x : Session) (uid : Name) (form : Form) (hash : Option Name) :
    Except Refusal Db := do
  let uid ← orRefuse ⟨"", 404⟩ (intId uid)
  let x ← s.adminGuard x
  let row ← orRefuse ⟨"Utilisateur introuvable.", 404⟩ (s.localUsers.table.find? uid)
  s.ownerProtected x row.username
  let passwordHash ← newPassword env row (form.password.getD []) hash
  let group ← s.newGroup x.username row form.group
  let maxBudget ← newBudget env form.maxBudget
  let isAdmin ← s.newFlag x.username row "rétrograder" form.isAdmin
  let enabled ← s.newFlag x.username row "désactiver" form.enabled
  let c : Changes := ⟨passwordHash, group, maxBudget, isAdmin, enabled, newFullname form.fullname⟩
  .ok { s with
        localUsers := s.localUsers.updateWhere (fun r => r.id = uid) c.apply
          (fun _ => rfl) (fun _ => rfl) }

/-- `POST /admin/users/delete/<int:uid>`. -/
def adminUsersDelete (x : Session) (uid : Name) (confirm : Option Name) : Except Refusal Db := do
  let uid ← orRefuse ⟨"", 404⟩ (intId uid)
  let x ← s.adminGuard x
  let row ← orRefuse ⟨"Utilisateur introuvable.", 404⟩ (s.localUsers.table.find? uid)
  refuseIf (row.username = x.username) ⟨"Tu ne peux pas supprimer ton propre compte.", 400⟩
  s.ownerProtected x row.username
  refuseIf (s.localIsAdmin row ∧ s.lastLocalAdmin row.username)
    ⟨"Dernier administrateur local : nomme un autre administrateur avant de supprimer celui-ci.", 400⟩
  refuseIf (confirmed env confirm = false)
    ⟨"Confirmation requise : cette suppression emporte les accès ET les données du compte.", 409⟩
  .ok ({ s with localUsers := s.localUsers.delete fun r => r.id = uid }.purgeData row.username)

end Db

/-- Who holds the password of an account. -/
inductive Management where
  | portal | ldapDirectory | ssoProvider | unknown
deriving DecidableEq, Repr

namespace Db

variable (env : Env) (s : Db)

/-- Who holds the password, and whether the account is a local one. -/
def management (username : Name) : Management × Bool :=
  let isLocal := (s.localUsers.named username).isSome
  let sources := ((s.sources.find? username).bind Source.sources).getD []
  let has (x : Name) : Bool := x ∈ sources.splitOn ','
  if isLocal then (.portal, isLocal)
  else if has "ldap".toList then (.ldapDirectory, isLocal)
  else if has "sso".toList then (.ssoProvider, isLocal)
  else (.unknown, isLocal)

/-- `POST /api/account/delete`: one's own account. `verified` is what
`verify_password_locked` refuses the password with, if it does. -/
def apiAccountDelete (x : Session) (confirm password : Option Name) (verified : Option Refusal) :
    Except Refusal Db := do
  let x ← orRefuse ⟨"", 401⟩ (s.requireSession x)
  let (how, isLocal) := s.management x.username
  refuseIf (confirmed env confirm = false)
    ⟨"Confirmation requise : cette suppression est définitive.", 409⟩
  refuseIf (isLocal ∧ x.isAdmin ∧ s.lastLocalAdmin x.username)
    ⟨"Tu es le dernier administrateur local : nomme un autre administrateur avant de supprimer ton compte.", 409⟩
  -- an SSO account has no password to ask for
  let asksPassword := how = .portal ∨ how = .ldapDirectory
  refuseIf (asksPassword ∧ password.getD [] = [])
    ⟨"Mot de passe requis pour supprimer ton compte.", 400⟩
  refuseIf (asksPassword ∧ verified.isSome) (verified.getD internalError)
  if isLocal then
    .ok ({ s with localUsers := s.localUsers.delete fun r => r.username = x.username }.purgeData
      x.username)
  else .ok (s.purgeData x.username)

/-! ## Blocking -/

/-- `admin_writes::local_is_admin`: the same right, from two columns of the row. -/
def localIsAdminOf (own : Bool) (group : Option Name) : Bool :=
  own || ((group.filter fun g => g ≠ []).bind s.groups.find?).any Group.isAdmin

/-- `POST /admin/users/<username>/block`. -/
def adminBlock (x : Session) (username : Name) : Except Refusal Db := do
  let x ← s.adminGuard x
  refuseIf (usernameOk username = false) ⟨"Nom d'utilisateur invalide.", 400⟩
  s.ownerProtected x username
  refuseIf (username = x.username) ⟨"Tu ne peux pas bloquer ton propre compte.", 400⟩
  -- blocked already: nothing is asked and nothing written
  if username ∈ s.blocked then .ok s
  else
    refuseIf ((s.localUsers.named username).any (fun r => s.localIsAdminOf r.isAdmin r.group) ∧
        s.lastLocalAdmin username)
      ⟨"Dernier administrateur local : nomme un autre administrateur avant de bloquer celui-ci.", 400⟩
    .ok { s with blocked := username :: s.blocked }

/-- `POST /admin/users/<username>/unblock`. -/
def adminUnblock (x : Session) (username : Name) : Except Refusal Db := do
  let _ ← s.adminGuard x
  refuseIf (usernameOk username = false) ⟨"Nom d'utilisateur invalide.", 400⟩
  .ok { s with blocked := s.blocked.filter fun u => u ≠ username }

end Db

/-! ## Groups -/

def groupNameOk (env : Env) (name : Name) : Bool :=
  decide (1 ≤ name.length) && decide (name.length ≤ 80) &&
    name.all fun c => env.alphanumeric c || c = '_' || c = ' ' || c = '.' || c = '-'

/-- A name that is not empty. -/
abbrev GroupName := { n : Name // n ≠ [] }

theorem GroupName.named (n : GroupName) : n.1 ≠ [] := n.2

def readGroupName (env : Env) (v : Option Name) : Except Refusal GroupName :=
  let name := field v
  if h : groupNameOk env name then
    .ok ⟨name, by
      rintro hnil
      rw [hnil] at h
      cases h⟩
  else .error ⟨"Nom de groupe invalide (max 80).", 400⟩

namespace Db

variable (env : Env) (s : Db)

/-- Groups merge by name whatever the case: the name of the existing row. -/
def canonicalName (name : GroupName) : GroupName :=
  match s.groups.rows.find? fun g => sqlLower g.name = sqlLower name with
  | some g => ⟨g.name, g.named⟩
  | none => name

/-- `WHERE group_name=?`. -/
def localMembers (name : Name) : List LocalUser :=
  s.localUsers.table.rows.filter fun r => r.group = some name

/-- The group carries the right of an administrator, and without its members no
local administrator would be left. -/
def strandsPortal (name : Name) : Bool :=
  (s.localGroup (some name)).any Group.isAdmin && (s.localMembers name).any s.localIsAdmin &&
    decide (s.localAdminsWithout ((s.localMembers name).map LocalUser.username) = 0)

/-- `INSERT INTO user_groups … ON CONFLICT(name) DO UPDATE SET max_budget, is_admin`. -/
def writeGroup (name : GroupName) (budget : Option Nat) (isAdmin : Bool) : Db :=
  let row : Group := ⟨name, budget, isAdmin, GroupName.named name⟩
  let edit (g : Group) : Group := { g with maxBudget := budget, isAdmin := isAdmin }
  { s with groups := s.groups.upsert row edit (fun _ => rfl) }

/-- `POST /admin/groups/create`: create or edit (by name, any case) a group. -/
def adminGroupsCreate (x : Session) (form : Form) : Except Refusal Db := do
  let _ ← s.adminGuard x
  let name ← readGroupName env form.name
  let budget ← parseBudget env form.maxBudget
  let isAdmin := truthyFlag form.isAdmin
  -- from here on the name of the existing group is meant
  let name := s.canonicalName name
  refuseIf (isAdmin = false ∧ s.strandsPortal name)
    ⟨"Retirer le droit d'administration du groupe " ++ String.ofList name ++
      " laisserait le portail sans aucun administrateur local. " ++
      "Ajoute un autre administrateur local d'abord.", 409⟩
  .ok ((s.writeGroup name budget isAdmin).recomputeMembers env name)

/-- `SET group_name=NULL`. -/
def clearGroup (r : LocalUser) : LocalUser := { r with group := none }

/-- `UPDATE local_users SET group_name=NULL WHERE group_name=?`, then
`DELETE FROM user_groups WHERE name=?`. -/
def dropGroup (name : Name) : Db :=
  { s with
    localUsers := s.localUsers.updateWhere (fun r => r.group = some name) clearGroup
      (fun _ => rfl) (fun _ => rfl)
    groups := s.groups.delete fun g => g.name = name }

/-- `POST /admin/groups/delete/<name>`: its members fall back on the default. -/
def adminGroupsDelete (x : Session) (name : Name) : Except Refusal Db := do
  let _ ← s.adminGuard x
  refuseIf (s.strandsPortal name)
    ⟨"Le groupe " ++ String.ofList name ++
      " porte les droits d'administration de ses membres et aucun administrateur local ne " ++
      "subsisterait après sa suppression. Ajoute un autre administrateur local d'abord.", 409⟩
  .ok ((s.dropGroup name).recomputeMembers env name)

end Db

/-! ## Requests one after another -/

/-- A request to one of the eight handlers. -/
inductive Op where
  | usersCreate (form : Form) (hash : Option Name)
  | usersUpdate (uid : Name) (form : Form) (hash : Option Name)
  | usersDelete (uid : Name) (confirm : Option Name)
  | accountDelete (confirm password : Option Name) (verified : Option Refusal)
  | block (username : Name)
  | unblock (username : Name)
  | groupsCreate (form : Form)
  | groupsDelete (name : Name)
deriving DecidableEq, Repr

namespace Db

def handle (env : Env) (s : Db) (x : Session) : Op → Except Refusal Db
  | .usersCreate form hash => s.adminUsersCreate env x form hash
  | .usersUpdate uid form hash => s.adminUsersUpdate env x uid form hash
  | .usersDelete uid confirm => s.adminUsersDelete env x uid confirm
  | .accountDelete confirm password verified => s.apiAccountDelete env x confirm password verified
  | .block username => s.adminBlock x username
  | .unblock username => s.adminUnblock x username
  | .groupsCreate form => s.adminGroupsCreate env x form
  | .groupsDelete name => s.adminGroupsDelete env x name

/-- The database after a request: a refused one leaves it as it was. -/
def serve (env : Env) (s : Db) (a : Session × Op) : Db :=
  match s.handle env a.1 a.2 with
  | .ok s' => s'
  | .error _ => s

/-- Requests of any sessions, one after another. -/
def serveAll (env : Env) (s : Db) (as : List (Session × Op)) : Db := as.foldl (serve env) s

end Db

end Portal.Accounts
