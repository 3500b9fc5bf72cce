import DgxPlatform.Lib.Calls
import DgxPlatform.Lib.Json
import DgxPlatform.Lib.Table
import DgxPlatform.Lib.Text
import DgxPlatform.Portal.Accounts
import DgxPlatform.Portal.Conversations
import Mathlib.Logic.Function.Basic

/-! # The MCP servers of the accounts and their tools

An account registers servers; its support chat announces their tools to the model.
What a server answered is kept for two minutes under the id of its row, for all accounts.

* `formMove` and its like are the steps of `mcp_form` between two awaits,
  `extraToolsMove` those of `extra_tools` with `list_tools_cached`.
* An entry of the cache records besides the source's fields from which url and auth
  header it was listed.
-/

namespace Portal.McpServers

open Calls
open Conversations (truthy)
open Accounts (pyIsSpace pyStrip)

/-! ## Servers and their remote side -/

/-- What a server is asked through. -/
structure Origin where
  url : List Char
  auth : Option (List Char)
deriving DecidableEq

/-- A row of `mcp_servers`. -/
structure Server where
  id : Nat
  username : List Char
  name : List Char
  url : List Char
  auth : Option (List Char)
  description : List Char
  allowed : List Char
  enabled : Bool
deriving DecidableEq

def Server.origin (r : Server) : Origin := ⟨r.url, r.auth⟩

/-- `McpError`. -/
inductive McpError where
  | said (message : List Char)
  | transport

/-- The servers as the portal reaches them: the guard against internal addresses
(`validated_target`) with its refusal, `initialize` and `tools/list`. -/
structure Remote where
  refused : List Char → Option (List Char)
  init : Origin → Except McpError Unit
  listTools : Origin → Except McpError (List Json)

/-- An entry of `TOOLS_CACHE`, with the origin its tools were listed from. -/
structure Entry where
  listedAt : Nat
  tools : List Json
  origin : Origin

structure Shared where
  /-- The clock of the process, in milliseconds. -/
  now : Nat
  servers : Table Server Server.id
  cache : Nat → Option Entry

/-- How long an entry of the cache is used. -/
def CACHE_TTL : Nat := 120000

/-- The entry that `list_tools_cached` uses instead of asking. -/
def Shared.cached (s : Shared) (id : Nat) : Option Entry :=
  (s.cache id).filter fun e => decide (s.now - e.listedAt < CACHE_TTL)

/-! ## Announced tools -/

/-- A tool that is announced: the row it was announced for, what its server said of it, and
where it was listed from. -/
structure Announced where
  server : Server
  tool : Json
  origin : Origin

def Announced.name (a : Announced) : List Char := ((a.tool.get? "name").bind Json.str?).getD []

/-- The name the model calls the tool by. -/
def Announced.prefixed (a : Announced) : List Char :=
  "mcp_".toList ++ (toString a.server.id).toList ++ '_' ::
    (a.name.map fun c => if c.isAlphanum ∨ c = '_' ∨ c = '-' then c else '_').take 60

/-- The tool as the model is told of it. -/
def Announced.spec (a : Announced) : Json :=
  let desc := (((a.tool.get? "description").bind Json.str?).filter (· ≠ [])).getD a.name
  .obj [("type", .str "function".toList), ("function", .obj [
    ("name", .str a.prefixed),
    ("description", .str ("[Serveur MCP « ".toList ++ a.server.name ++ " »] ".toList ++ desc)),
    ("parameters", ((a.tool.get? "inputSchema").filter truthy).getD
      (.obj [("type", .str "object".toList), ("properties", .obj [])]))])]

/-- The names in `allowed_tools`. -/
def allowList (allowed : List Char) : List (List Char) :=
  ((allowed.splitOn ',').map pyStrip).filter (· ≠ [])

/-- The tools of an answer that the row allows; an empty list allows all. -/
def allowedTools (r : Server) (tools : List Json) : List Json :=
  let allow := allowList r.allowed
  if allow = [] then tools
  else tools.filter fun t => ((t.get? "name").bind Json.str?).any fun n => n ∈ allow

def announce (r : Server) (tools : List Json) (o : Origin) : List Announced :=
  (allowedTools r tools).map fun t => ⟨r, t, o⟩

/-- What a server answers, nothing when it fails. -/
def discovered (remote : Remote) (o : Origin) : List Json :=
  match remote.init o with
  | .ok _ => (remote.listTools o).toOption.getD []
  | .error _ => []

/-! ## The form -/

inductive Action where
  | create
  | update
  | toggle
  | delete
  | other
deriving DecidableEq

/-- The fields of the form, empty where one is missing; `id` is the number that SQLite reads
in the text of that field. -/
structure Form where
  id : Option Nat
  name : List Char
  url : List Char
  auth : List Char
  description : List Char
  allowed : List Char
  enabled : List Char

/-- What the form writes to a row. -/
structure Draft where
  name : List Char
  url : List Char
  auth : Option (List Char)
  description : List Char
  allowed : List Char

def Draft.origin (d : Draft) : Origin := ⟨d.url, d.auth⟩

/-- The draft of a form with this auth header. -/
def Form.draft (f : Form) (auth : Option (List Char)) : Draft where
  name := (pyStrip f.name).take 60
  url := pyStrip f.url
  auth := auth
  description := (pyStrip f.description).take 300
  allowed := (pyStrip f.allowed).take 500

def Form.createDraft (f : Form) : Draft := f.draft (some (pyStrip f.auth) |>.filter (· ≠ []))

/-- Left empty the auth header is unchanged; `-` clears it. -/
def Form.updateDraft (f : Form) (stored : Option (List Char)) : Draft :=
  f.draft <|
    if pyStrip f.auth = ['-'] then none
    else if f.auth = [] then stored
    else some (pyStrip f.auth) |>.filter (· ≠ [])

/-- `valid_name`. -/
def validName (name : List Char) : Bool :=
  1 ≤ name.length && name.length ≤ 60 && name.all fun c => c.isAlphanum || c == '_' || c == '-'

/-- A live check of the server: the number of tools it offers, or the refusal. -/
def probe (remote : Remote) (o : Origin) : Except (List Char) Nat :=
  match remote.init o *> remote.listTools o with
  | .ok tools => .ok tools.length
  | .error (.said e) => .error ("Connexion au serveur MCP impossible : ".toList ++ e)
  | .error .transport => .error "Connexion au serveur MCP impossible.".toList

/-- The checks of a draft, the same for a creation and an update. -/
def Draft.check (remote : Remote) (d : Draft) : Except (List Char) Nat :=
  if d.name = [] ∨ d.url = [] then .error "Nom et URL requis.".toList
  else if !validName d.name then
    .error "Lettres, chiffres, underscores et tirets uniquement.".toList
  else
    match remote.refused d.url with
    | some e => .error e
    | none => probe remote d.origin

inductive Reply where
  | refused (error : List Char)
  | ok (toolCount : Option Nat)
  | serverError
  | noContent

def MAX_MCP_SERVERS : Nat := 16

/-- The refusal of a name that the account has given to another server. -/
def nameTaken : Reply := .refused "Tu as déjà un serveur MCP avec ce nom.".toList

/-! ## The calls -/

/-- A request: the form of an account, or `extra_tools` for its support chat. -/
inductive Request where
  | form (user : List Char) (action : Action) (f : Form)
  | extraTools (user : List Char)

/-- Where a request stands. -/
inductive Party where
  /-- In front of the first statement. -/
  | form (user : List Char) (action : Action) (f : Form)
  | counted (user : List Char) (f : Form)
  | inserting (user : List Char) (d : Draft) (tools : Nat)
  | read (user : List Char) (f : Form) (stored : Option (List Char))
  | updating (user : List Char) (id : Option Nat) (d : Draft) (tools : Nat)
  | replied (reply : Reply)
  | selecting (user : List Char)
  /-- In front of the next server. -/
  | listing (user : List Char) (rest : List Server) (tools : List Announced)
  /-- Waiting for the answer of a server that is not in the cache. -/
  | asking (user : List Char) (r : Server) (rest : List Server) (tools : List Announced)
  | announced

def Request.first : Request → Party
  | .form user action f => .form user action f
  | .extraTools user => .selecting user

/-- A move: the next stretch up to an await, an insertion with the id that SQLite gives, or a
statement that fails. -/
inductive Move where
  | go
  | given (id : Nat)
  | fail

/-- `WHERE id=? AND username=?`. -/
def owned (user : List Char) (id : Option Nat) (r : Server) : Bool :=
  decide (id = some r.id ∧ r.username = user)

/-- The row that an update writes. -/
def Server.write (d : Draft) (r : Server) : Server :=
  { r with
    name := d.name, url := d.url, auth := d.auth, description := d.description,
    allowed := d.allowed, enabled := d.auth.isSome || r.enabled }

/-- The row that a creation inserts. -/
def Draft.row (d : Draft) (user : List Char) (id : Nat) : Server :=
  ⟨id, user, d.name, d.url, d.auth, d.description, d.allowed, true⟩

namespace Shared

def delete (s : Shared) (user : List Char) (id : Option Nat) : Shared :=
  { s with servers := s.servers.delete (owned user id) }

def toggle (s : Shared) (user : List Char) (id : Option Nat) (enabled : Bool) : Shared :=
  { s with
    servers := s.servers.updateWhere (owned user id) (fun r => { r with enabled := enabled })
      fun _ => rfl }

def update (s : Shared) (user : List Char) (id : Option Nat) (d : Draft) : Shared :=
  { s with servers := s.servers.updateWhere (owned user id) (Server.write d) fun _ => rfl }

/-- Another row of the account has the name. -/
def hasName (s : Shared) (user name : List Char) (id : Option Nat) : Bool :=
  s.servers.rows.any fun r => decide (r.username = user ∧ r.name = name ∧ some r.id ≠ id)

end Shared

/-- The first statement of the form. -/
def formMove (s : Shared) (user : List Char) (f : Form) : Action → Move → Option (Shared × Party)
  | .create, .go =>
      if MAX_MCP_SERVERS ≤ (s.servers.rows.filter fun r => r.username = user).length then
        some (s, .replied (.refused "Maximum 16 serveurs MCP par compte.".toList))
      else some (s, .counted user f)
  | .update, .go =>
      match s.servers.rows.find? (owned user f.id) with
      | none => some (s, .replied (.refused "Serveur introuvable.".toList))
      | some r => some (s, .read user f r.auth)
  | .toggle, .go => some (s.toggle user f.id (f.enabled == ['1']), .replied (.ok none))
  | .delete, .go => some (s.delete user f.id, .replied .noContent)
  | .other, .go => some (s, .replied .noContent)
  | .other, _ => none
  | _, .fail => some (s, .replied .serverError)
  | _, .given _ => none

/-- The insertion, under the id that SQLite gives. -/
def insertMove (s : Shared) (user : List Char) (d : Draft) (tools : Nat) :
    Move → Option (Shared × Party)
  | .given id =>
      if s.hasName user d.name none then some (s, .replied nameTaken)
      else if h : s.servers.find? (d.row user id).id = none then
        some ({ s with servers := s.servers.insert (d.row user id) h }, .replied (.ok (some tools)))
      else none
  | .fail => some (s, .replied .serverError)
  | .go => none

def updateMove (s : Shared) (user : List Char) (id : Option Nat) (d : Draft) (tools : Nat) :
    Move → Option (Shared × Party)
  | .go =>
      if s.servers.rows.any (owned user id) && s.hasName user d.name id then
        some (s, .replied nameTaken)
      else some (s.update user id d, .replied (.ok (some tools)))
  | .fail => some (s, .replied .serverError)
  | .given _ => none

/-- The checks in front of a write. -/
def checkMove (remote : Remote) (s : Shared) (d : Draft) (next : Nat → Party) :
    Move → Option (Shared × Party)
  | .go =>
      match d.check remote with
      | .error e => some (s, .replied (.refused e))
      | .ok tools => some (s, next tools)
  | _ => none

/-- `list_tools_cached` in front of the await: a used entry answers at once. -/
def lookMove (s : Shared) (user : List Char) (tools : List Announced) :
    List Server → Move → Option (Shared × Party)
  | [], .go => some (s, .announced)
  | r :: rest, .go =>
      match s.cached r.id with
      | some e => some (s, .listing user rest (tools ++ announce r e.tools e.origin))
      | none => some (s, .asking user r rest tools)
  | _, _ => none

/-- `list_tools_cached` behind the await: the answer is kept, also a failure. -/
def answerMove (remote : Remote) (s : Shared) (user : List Char) (r : Server) (rest : List Server)
    (tools : List Announced) : Move → Option (Shared × Party)
  | .go =>
      let found := discovered remote r.origin
      some ({ s with cache := Function.update s.cache r.id (some ⟨s.now, found, r.origin⟩) },
        .listing user rest (tools ++ announce r found r.origin))
  | _ => none

/-- The servers of `extra_tools`, none when the statement fails. -/
def selectMove (s : Shared) (user : List Char) : Move → Option (Shared × Party)
  | .go => some (s, .listing user
      (s.servers.rows.filter fun r => decide (r.username = user) && r.enabled) [])
  | .fail => some (s, .listing user [] [])
  | .given _ => none

def move (remote : Remote) (s : Shared) : Party → Move → Option (Shared × Party)
  | .form user action f, m => formMove s user f action m
  | .counted user f, m => checkMove remote s f.createDraft (.inserting user f.createDraft) m
  | .inserting user d tools, m => insertMove s user d tools m
  | .read user f stored, m =>
      checkMove remote s (f.updateDraft stored) (.updating user f.id (f.updateDraft stored)) m
  | .updating user id d tools, m => updateMove s user id d tools m
  | .selecting user, m => selectMove s user m
  | .listing user rest tools, m => lookMove s user tools rest m
  | .asking user r rest tools, m => answerMove remote s user r rest tools m
  | .replied _, _ => none
  | .announced, _ => none

/-- The forms and support chats of all accounts; time passes in between. -/
def portal (remote : Remote) : Machine Shared Request Party Move Nat where
  first := Request.first
  move := move remote
  env s d := some { s with now := s.now + d }

/-! ## Registered origins -/

/-- What a chat announces next. -/
def Party.announces : Party → Option (List Char × List Announced)
  | .listing user [] tools => some (user, tools)
  | _ => none

/-- The account has a row with this id and this origin. -/
def Registered (s : Shared) (user : List Char) (id : Nat) (o : Origin) : Prop :=
  ∃ r, s.servers.find? id = some r ∧ r.username = user ∧ r.origin = o

/-- A tool that the server of its row offers, at the url and with the auth header that the row
holds. -/
structure Announced.Current (remote : Remote) (s : Shared) (user : List Char) (a : Announced) :
    Prop where
  registered : Registered s user a.server.id a.origin
  offered : a.tool ∈ discovered remote a.origin

/-- Whatever is announced next comes from the servers as they are registered. -/
def AnnouncesCurrent (remote : Remote) (s : Conf Shared Party) : Prop :=
  ∀ c ∈ s.calls, ∀ user tools, c.announces = some (user, tools) →
    ∀ a ∈ tools, a.Current remote s.shared user

/-! ## Edits that stay clear -/

/-- The rows that a chat under way has read, with the origin it read or used. -/
def Party.uses : Party → List (List Char × Nat × Origin)
  | .listing user rest tools =>
      (rest.map fun r => (user, r.id, r.origin)) ++ tools.map fun a => (user, a.server.id, a.origin)
  | .asking user r rest tools =>
      ((r :: rest).map fun r => (user, r.id, r.origin)) ++
        tools.map fun a => (user, a.server.id, a.origin)
  | _ => []

/-- No chat under way has read the row. -/
def Unread (s : Conf Shared Party) (id : Nat) : Prop := ∀ c ∈ s.calls, ∀ u ∈ c.uses, u.2.1 ≠ id

/-- An edit of a row leaves alone what chats and the cache hold of it: a deletion comes while no
chat under way has read the row, a new url or auth header besides when no entry of the cache is
in use, and a new row takes no id of such an entry. -/
def Clear (s : Conf Shared Party) : Party → Move → Prop
  | .form user .delete f, .go => ∀ r ∈ s.shared.servers.rows, owned user f.id r = true → Unread s r.id
  | .updating user id d _, .go => ∀ r ∈ s.shared.servers.rows, owned user id r = true →
      d.origin ≠ r.origin → Unread s r.id ∧ s.shared.cached r.id = none
  | .inserting _ _ _, .given id => s.shared.cached id = none
  | _, _ => True

/-- The edits of a step stay clear of the chats and the cache. -/
def EditsClear (s : Conf Shared Party) : Act Request Move Nat → Prop
  | .move i m => ∀ c ∈ s.calls[i]?, Clear s c m
  | _ => True

instance (s : Conf Shared Party) (id : Nat) : Decidable (Unread s id) := by
  unfold Unread
  infer_instance

instance (s : Conf Shared Party) (p : Party) (m : Move) : Decidable (Clear s p m) := by
  unfold Clear
  split <;> infer_instance

instance (s : Conf Shared Party) : ∀ a, Decidable (EditsClear s a)
  | .enter _ => .isTrue trivial
  | .env _ => .isTrue trivial
  | .move i m => inferInstanceAs (Decidable (∀ c ∈ s.calls[i]?, Clear s c m))

/-! ## What a move does -/

def Party.collected : Party → List Announced
  | .listing _ _ tools => tools
  | .asking _ _ _ tools => tools
  | _ => []

/-- The moves by what they change; a party that holds no tools is left open. -/
inductive Effect (remote : Remote) (s : Shared) : Party → Move → Shared → Party → Prop
  | plain {p : Party} {m : Move} {p' : Party} (huses : p'.uses = []) (htools : p'.collected = []) : Effect remote s p m s p'
  | deleted {user f} :
      Effect remote s (.form user .delete f) .go (s.delete user f.id) (.replied .noContent)
  | toggled {user f} : Effect remote s (.form user .toggle f) .go
      (s.toggle user f.id (f.enabled == ['1'])) (.replied (.ok none))
  | inserted {user d tools id} (h : s.servers.find? (d.row user id).id = none) :
      Effect remote s (.inserting user d tools) (.given id)
        { s with servers := s.servers.insert (d.row user id) h } (.replied (.ok (some tools)))
  | updated {user id d tools} : Effect remote s (.updating user id d tools) .go
      (s.update user id d) (.replied (.ok (some tools)))
  | selected {user} : Effect remote s (.selecting user) .go s (.listing user
      (s.servers.rows.filter fun r => decide (r.username = user) && r.enabled) [])
  | hit {user r rest tools e} (h : s.cached r.id = some e) :
      Effect remote s (.listing user (r :: rest) tools) .go s
        (.listing user rest (tools ++ announce r e.tools e.origin))
  | missed {user r rest tools} : Effect remote s (.listing user (r :: rest) tools) .go s
      (.asking user r rest tools)
  | answered {user r rest tools} : Effect remote s (.asking user r rest tools) .go
      { s with
        cache := Function.update s.cache r.id
          (some ⟨s.now, discovered remote r.origin, r.origin⟩) }
      (.listing user rest (tools ++ announce r (discovered remote r.origin) r.origin))

variable {remote : Remote} {s s' : Shared} {p p' : Party} {m : Move}

variable {user : List Char}

theorem effect_of_formMove {f : Form} {action : Action} (h : formMove s user f action m = some (s', p')) :
    Effect remote s (.form user action f) m s' p' := by
  revert h
  fun_cases formMove s user f action m <;> intro h <;> cases h
  all_goals first
    | exact .plain rfl rfl
    | exact .toggled
    | exact .deleted

variable {d : Draft}

theorem effect_of_checkMove {next : Nat → Party} (hnext : ∀ n, (next n).uses = [])
    (htools : ∀ n, (next n).collected = []) (h : checkMove remote s d next m = some (s', p')) :
    Effect remote s p m s' p' := by
  revert h
  fun_cases checkMove remote s d next m <;> intro h <;> cases h
  · exact .plain rfl rfl
  · exact .plain (hnext _) (htools _)

theorem effect_of_insertMove {tools : Nat} (h : insertMove s user d tools m = some (s', p')) :
    Effect remote s (.inserting user d tools) m s' p' := by
  revert h
  fun_cases insertMove s user d tools m <;> intro h <;> cases h
  · exact .plain rfl rfl
  · exact .inserted _
  · exact .plain rfl rfl

theorem effect_of_updateMove {id : Option Nat} {tools : Nat}
    (h : updateMove s user id d tools m = some (s', p')) :
    Effect remote s (.updating user id d tools) m s' p' := by
  revert h
  fun_cases updateMove s user id d tools m <;> intro h <;> cases h
  · exact .plain rfl rfl
  · exact .updated
  · exact .plain rfl rfl

variable {rest : List Server}

theorem effect_of_lookMove {tools : List Announced} (h : lookMove s user tools rest m = some (s', p')) :
    Effect remote s (.listing user rest tools) m s' p' := by
  revert h
  fun_cases lookMove s user tools rest m <;> intro h <;> cases h
  · exact .plain rfl rfl
  · next e he => exact .hit he
  · exact .missed

theorem effect_of_selectMove (h : selectMove s user m = some (s', p')) :
    Effect remote s (.selecting user) m s' p' := by
  revert h
  fun_cases selectMove s user m <;> intro h <;> cases h
  · exact .selected
  · exact .plain rfl rfl

theorem effect_of_answerMove {r : Server}
    {tools : List Announced} (h : answerMove remote s user r rest tools m = some (s', p')) :
    Effect remote s (.asking user r rest tools) m s' p' := by
  revert h
  fun_cases answerMove remote s user r rest tools m <;> intro h <;> cases h
  exact .answered

theorem effect_of_move (h : move remote s p m = some (s', p')) : Effect remote s p m s' p' := by
  cases p with
  | form user action f => exact effect_of_formMove h
  | counted user f => exact effect_of_checkMove (fun _ => rfl) (fun _ => rfl) h
  | inserting user d tools => exact effect_of_insertMove h
  | read user f stored => exact effect_of_checkMove (fun _ => rfl) (fun _ => rfl) h
  | updating user id d tools => exact effect_of_updateMove h
  | replied reply => cases h
  | selecting user => exact effect_of_selectMove h
  | listing user rest tools => exact effect_of_lookMove h
  | asking user r rest tools => exact effect_of_answerMove h
  | announced => cases h

/-! ## Coherence -/

/-- The used entries of the cache and what the chats under way have read agree with the rows. -/
structure Coherent (remote : Remote) (s : Conf Shared Party) : Prop where
  cached : ∀ id e r, s.shared.cached id = some e → s.shared.servers.find? id = some r →
    e.origin = r.origin
  offered : ∀ id e, s.shared.cache id = some e → e.tools = discovered remote e.origin
  used : ∀ c ∈ s.calls, ∀ u ∈ c.uses, Registered s.shared u.1 u.2.1 u.2.2
  genuine : ∀ c ∈ s.calls, ∀ a ∈ c.collected, a.tool ∈ discovered remote a.origin

theorem mem_cache_of_cached {id : Nat} {e : Entry} (h : s.cached id = some e) :
    s.cache id = some e := (Option.filter_eq_some_iff.1 h).1

theorem mem_tools_of_announce {r : Server} {tools : List Json} {o : Origin} {a : Announced}
    (h : a ∈ announce r tools o) : a.server = r ∧ a.origin = o ∧ a.tool ∈ tools := by
  obtain ⟨t, ht, rfl⟩ := List.mem_map.1 h
  refine ⟨rfl, rfl, ?_⟩
  unfold allowedTools at ht
  simp only at ht
  split at ht
  · exact ht
  · exact List.mem_of_mem_filter ht

variable {cs : Conf Shared Party} {i : Nat}

theorem Coherent.announces (h : Coherent remote cs) : AnnouncesCurrent remote cs := by
  intro c hc user tools hann a ha
  cases c with
  | listing u rest ts =>
    cases rest with
    | nil =>
      obtain ⟨rfl, rfl⟩ : u = user ∧ ts = tools := by simpa [Party.announces] using hann
      exact ⟨h.used _ hc (u, a.server.id, a.origin) (List.mem_map.2 ⟨a, ha, rfl⟩),
        h.genuine _ hc a ha⟩
    | cons r rest => cases hann
  | _ => cases hann

/-- A call that holds nothing, and a table that keeps what is used and what is cached. -/
theorem Coherent.edit (h : Coherent remote cs) {servers : Table Server Server.id}
    (huses : p'.uses = []) (htools : p'.collected = [])
    (hused : ∀ user id o, ¬ Unread cs id → Registered cs.shared user id o →
      Registered { cs.shared with servers := servers } user id o)
    (hcached : ∀ id r, servers.find? id = some r → (∃ e, cs.shared.cached id = some e) →
      ∃ q, cs.shared.servers.find? id = some q ∧ q.origin = r.origin) :
    Coherent remote ⟨{ cs.shared with servers := servers }, cs.calls.set i p'⟩ := by
  constructor
  · intro id e r he hr
    obtain ⟨q, hq, horigin⟩ := hcached id r hr ⟨e, he⟩
    rw [← horigin]
    exact h.cached id e q he hq
  · exact h.offered
  · refine forall_set (fun c hc u hu => ?_) (by simp [huses])
    exact hused _ _ _ (fun hun => hun c hc u hu rfl) (h.used c hc u hu)
  · exact forall_set h.genuine (by simp [htools])

theorem Coherent.deleted (h : Coherent remote cs) {id : Option Nat}
    (hclear : ∀ r ∈ cs.shared.servers.rows, owned user id r = true → Unread cs r.id) :
    Coherent remote ⟨cs.shared.delete user id, cs.calls.set i (.replied .noContent)⟩ := by
  refine h.edit rfl rfl ?_ ?_
  · rintro account k o hread ⟨r, hr, hrest⟩
    -- the row is in use, so it is none that is deleted
    have hkept : owned user id r = false := by
      by_contra howned
      rw [Bool.not_eq_false] at howned
      have hun := hclear r (Table.mem_of_find? hr) howned
      rw [Table.key_of_find? hr] at hun
      exact hread hun
    exact ⟨r, Table.find?_delete hr hkept, hrest⟩
  · intro k r hr _
    exact ⟨r, (Table.find?_of_delete hr).1, rfl⟩

/-- Rows that are written over keep their account, and their origin where it is in use. -/
theorem Coherent.written (h : Coherent remote cs) {reply : Reply} {q : Server → Bool}
    {f : Server → Server} {hf : ∀ r, (f r).id = r.id}
    (hkeep : ∀ r ∈ cs.shared.servers.rows, q r = true → (f r).username = r.username ∧
      ((f r).origin = r.origin ∨ Unread cs r.id ∧ cs.shared.cached r.id = none)) :
    Coherent remote ⟨{ cs.shared with servers := cs.shared.servers.updateWhere q f hf },
      cs.calls.set i (.replied reply)⟩ := by
  have hrow : ∀ k r, cs.shared.servers.find? k = some r →
      (cs.shared.servers.updateWhere q f hf).find? k = some (if q r then f r else r) := by
    intro k r hr
    rw [Table.find?_updateWhere, hr, Option.map_some]
  refine h.edit rfl rfl ?_ ?_
  · rintro account k o hread ⟨r, hr, huser, horigin⟩
    refine ⟨_, hrow k r hr, ?_⟩
    split
    · next hq =>
        obtain ⟨husername, hsame | ⟨hun, -⟩⟩ := hkeep r (Table.mem_of_find? hr) hq
        · exact ⟨husername.trans huser, hsame.trans horigin⟩
        · rw [Table.key_of_find? hr] at hun
          exact absurd hun hread
    · exact ⟨huser, horigin⟩
  · rintro k r hr ⟨e, he⟩
    rw [Table.find?_updateWhere] at hr
    obtain ⟨r₀, hr₀, rfl⟩ := Option.map_eq_some_iff.1 hr
    refine ⟨r₀, hr₀, ?_⟩
    split
    · next hq =>
        obtain ⟨-, hsame | ⟨-, hnone⟩⟩ := hkeep r₀ (Table.mem_of_find? hr₀) hq
        · exact hsame.symm
        · rw [Table.key_of_find? hr₀, he] at hnone
          cases hnone
    · rfl

theorem Coherent.updated (h : Coherent remote cs) {id : Option Nat} {reply : Reply}
    (hclear : ∀ r ∈ cs.shared.servers.rows, owned user id r = true → d.origin ≠ r.origin →
      Unread cs r.id ∧ cs.shared.cached r.id = none) :
    Coherent remote ⟨cs.shared.update user id d, cs.calls.set i (.replied reply)⟩ := by
  refine h.written fun r hr howned => ⟨rfl, ?_⟩
  by_cases hsame : d.origin = r.origin
  · exact .inl hsame
  · exact .inr (hclear r hr howned hsame)

theorem Coherent.inserted (h : Coherent remote cs) {id : Nat}
    {reply : Reply} (hnew : cs.shared.servers.find? (d.row user id).id = none)
    (hclear : cs.shared.cached id = none) :
    Coherent remote ⟨{ cs.shared with servers := cs.shared.servers.insert (d.row user id) hnew },
      cs.calls.set i (.replied reply)⟩ := by
  refine h.edit rfl rfl ?_ ?_
  · rintro account k o - ⟨r, hr, hrest⟩
    have hne : k ≠ (d.row user id).id := by
      intro hk
      rw [hk, hnew] at hr
      cases hr
    exact ⟨r, by rw [Table.find?_insert, if_neg hne, hr], hrest⟩
  · rintro k r hr ⟨e, he⟩
    rw [Table.find?_insert] at hr
    split at hr
    · next hk =>
        rw [hk] at he
        have hnone : cs.shared.cached (d.row user id).id = none := hclear
        rw [hnone] at he
        cases he
    · exact ⟨r, hr, rfl⟩

/-- A call that goes on with the rows and tools it had, and tools of a registered server. -/
theorem Coherent.listed (h : Coherent remote cs) {r : Server}
    {tools : List Announced} (hi : cs.calls[i]? = some p)
    (huses : p.uses = ((r :: rest).map fun r => (user, r.id, r.origin)) ++
      tools.map fun a => (user, a.server.id, a.origin))
    (htools : p.collected = tools) {found : List Json} {o : Origin}
    (ho : o = r.origin) (hfound : ∀ t ∈ found, t ∈ discovered remote o) :
    Coherent remote ⟨cs.shared, cs.calls.set i
      (.listing user rest (tools ++ announce r found o))⟩ := by
  have hmem := List.mem_of_getElem? hi
  refine ⟨h.cached, h.offered, forall_set h.used ?_, forall_set h.genuine ?_⟩
  · intro u hu
    rw [Party.uses, List.map_append] at hu
    rcases List.mem_append.1 hu with hu | hu
    · exact h.used p hmem u (by rw [huses]; exact List.mem_append_left _ (List.mem_cons_of_mem _ hu))
    · rcases List.mem_append.1 hu with hu | hu
      · exact h.used p hmem u (by rw [huses]; exact List.mem_append_right _ hu)
      · obtain ⟨a, ha, rfl⟩ := List.mem_map.1 hu
        obtain ⟨hserver, horigin, -⟩ := mem_tools_of_announce ha
        rw [hserver, horigin, ho]
        exact h.used p hmem (user, r.id, r.origin) (by rw [huses]; simp)
  · intro a ha
    rcases List.mem_append.1 ha with ha | ha
    · exact h.genuine p hmem a (by rwa [htools])
    · obtain ⟨-, horigin, htool⟩ := mem_tools_of_announce ha
      rw [horigin]
      exact hfound _ htool

theorem Coherent.step (h : Coherent remote cs) {a : Act Request Move Nat} (hclear : EditsClear cs a)
    {cs' : Conf Shared Party} (hs : (portal remote).step cs a = some cs') : Coherent remote cs' := by
  cases a with
  | enter q =>
    cases hs
    have hnone : (Request.first q).uses = [] ∧ (Request.first q).collected = [] := by
      cases q <;> exact ⟨rfl, rfl⟩
    refine ⟨h.cached, h.offered, forall_append h.used ?_, forall_append h.genuine ?_⟩
    · simp [portal, hnone.1]
    · simp [portal, hnone.2]
  | env d =>
    obtain ⟨sh, hsh, rfl⟩ := Machine.step_env hs
    obtain rfl : { cs.shared with now := cs.shared.now + d } = sh := Option.some.inj hsh
    refine ⟨fun id e r he hr => h.cached id e r ?_ hr, h.offered, h.used, h.genuine⟩
    -- an entry that is used later is used now
    obtain ⟨hcache, hage⟩ := Option.filter_eq_some_iff.1 he
    have hage : cs.shared.now + d - e.listedAt < CACHE_TTL := of_decide_eq_true hage
    exact Option.filter_eq_some_iff.2 ⟨hcache, decide_eq_true (by omega)⟩
  | move i m =>
    obtain ⟨p, sh, p', hi, hm, rfl⟩ := Machine.step_move hs
    have hcl := hclear p hi
    cases effect_of_move hm with
    | plain huses htools =>
      exact ⟨h.cached, h.offered, forall_set h.used (by simp [huses]),
        forall_set h.genuine (by simp [htools])⟩
    | deleted => exact h.deleted hcl
    | toggled => exact h.written fun r _ _ => ⟨rfl, .inl rfl⟩
    | inserted hnew => exact h.inserted hnew hcl
    | updated => exact h.updated hcl
    | selected =>
      refine ⟨h.cached, h.offered, forall_set h.used ?_, forall_set h.genuine nofun⟩
      intro u hu
      rw [Party.uses, List.map_nil, List.append_nil] at hu
      obtain ⟨r, hr, rfl⟩ := List.mem_map.1 hu
      obtain ⟨hmem, hown⟩ := List.mem_filter.1 hr
      refine ⟨r, Table.find?_of_mem hmem, ?_, rfl⟩
      simp only [Bool.and_eq_true, decide_eq_true_eq] at hown
      exact hown.1
    | @hit user r rest tools e he =>
      obtain ⟨q, hq, -, hqr⟩ := h.used _ (List.mem_of_getElem? hi) (user, r.id, r.origin)
        (by simp [Party.uses])
      have horigin : e.origin = r.origin := (h.cached r.id e q he hq).trans hqr
      refine h.listed hi rfl rfl horigin ?_
      rw [h.offered r.id e (mem_cache_of_cached he)]
      exact fun t ht => ht
    | @missed user r rest tools =>
      have hmem := List.mem_of_getElem? hi
      refine ⟨h.cached, h.offered, forall_set h.used ?_, forall_set h.genuine ?_⟩
      · exact fun u hu => h.used _ hmem u hu
      · exact fun a ha => h.genuine _ hmem a ha
    | @answered user r rest tools =>
      have hlisted := h.listed hi rfl rfl rfl (fun t ht => ht)
      have hreg := h.used _ (List.mem_of_getElem? hi) (user, r.id, r.origin)
        (by simp [Party.uses])
      refine ⟨?_, ?_, hlisted.used, hlisted.genuine⟩
      · intro id e q he hq
        obtain ⟨hcache, hage⟩ := Option.filter_eq_some_iff.1 he
        by_cases hid : id = r.id
        · subst hid
          obtain rfl : _ = e := by simpa using hcache
          obtain ⟨q', hq', -, horigin⟩ := hreg
          rw [Option.some.inj (hq.symm.trans hq')]
          exact horigin.symm
        · refine h.cached id e q (Option.filter_eq_some_iff.2 ⟨?_, hage⟩) hq
          simpa [hid] using hcache
      · intro id e hcache
        by_cases hid : id = r.id
        · subst hid
          obtain rfl : _ = e := by simpa using hcache
          rfl
        · exact h.offered id e (by simpa [hid] using hcache)

/-- While every deletion, every new url or auth header and every new row stays clear of what
the cache and the chats under way hold, a chat announces only tools that were listed from
the url and with the auth header that the row of its own account holds at that moment. -/
theorem announced_registered (remote : Remote) (sh : Shared) (hcold : ∀ id, sh.cache id = none)
    (as : List (Act Request Move Nat))
    (hclear : Run.Meets (portal remote).step EditsClear (.init sh) as) :
    Run.Always (portal remote).step (AnnouncesCurrent remote) (.init sh) as := by
  refine Run.always_of_meets (fun _ => Coherent.announces) (fun _ _ _ h hcl hs => h.step hcl hs) ?_ hclear
  refine ⟨?_, by simp [hcold, Conf.init], nofun, nofun⟩
  intro id e r he _
  have hnone := (hcold id).symm.trans (mem_cache_of_cached he)
  cases hnone

/-! A server that moves from one url to another. -/

/-- Every url offers one tool that is named after it. -/
def urlTools : Remote where
  refused := fun _ => none
  init := fun _ => .ok ()
  listTools := fun o => .ok [.obj [("name", .str o.url)]]

def freshStart : Shared := ⟨0, ⟨[], List.nodup_nil⟩, fun _ => none⟩

def docsForm (url : List Char) : Form :=
  ⟨some 1, "docs".toList, url, "key".toList, [], [], []⟩

/-- The account registers the server and its chat lists the tools. -/
def registeredAndListed : List (Act Request Move Nat) :=
  [.enter (.form ['u'] .create (docsForm ['a'])), .move 0 .go, .move 0 .go, .move 0 (.given 1),
    .enter (.extraTools ['u']), .move 1 .go, .move 1 .go, .move 1 .go]

/-- The url is replaced `d` milliseconds after the chat is answered, and another chat looks. -/
def movedAndListed (d : Nat) : List (Act Request Move Nat) :=
  registeredAndListed ++ [.move 1 .go, .env d, .enter (.form ['u'] .update (docsForm ['b'])),
    .move 2 .go, .move 2 .go, .move 2 .go, .enter (.extraTools ['u']), .move 3 .go, .move 3 .go]

/-- What chat `i` announces next: for each tool the url it was listed from and the url its
row holds. -/
def announcedUrls (i : Nat) (s : Conf Shared Party) :
    Option (List (List Char × Option (List Char))) :=
  (s.calls[i]?.bind Party.announces).map fun r =>
    r.2.map fun a => (a.origin.url, (s.shared.servers.find? a.server.id).map Server.url)

/-- Two minutes later the entry is out of use. -/
theorem announced_after_two_minutes : (∀ id, freshStart.cache id = none) ∧
    Run.Meets (portal urlTools).step EditsClear (.init freshStart) (movedAndListed 120000) ∧
    Run.Always (portal urlTools).step (AnnouncesCurrent urlTools) (.init freshStart)
      (movedAndListed 120000) ∧
    (Run.exec (portal urlTools).step (.init freshStart) (movedAndListed 120000 ++
      [.move 3 .go])).map (announcedUrls 3) = some (some [(['b'], some ['b'])]) := by
  have hclear : Run.Meets (portal urlTools).step EditsClear (.init freshStart)
      (movedAndListed 120000) := by
    decide +kernel
  exact ⟨fun _ => rfl, hclear, announced_registered urlTools freshStart (fun _ => rfl) _ hclear,
    by decide +kernel⟩

/-- The entry of the old url is still in use when the second chat looks. -/
theorem replaced_still_announced : ¬ ∀ (remote : Remote) (as : List (Act Request Move Nat)),
    Run.Always (portal remote).step (AnnouncesCurrent remote) (.init freshStart) as := by
  intro h
  have hrun : (Run.exec (portal urlTools).step (.init freshStart) (movedAndListed 0)).map
      (announcedUrls 3) = some (some [(['a'], some ['b'])]) := by decide +kernel
  obtain ⟨s, hs, hurls⟩ := Option.map_eq_some_iff.1 hrun
  obtain ⟨⟨user, tools⟩, htools, hlist⟩ := Option.map_eq_some_iff.1 hurls
  obtain ⟨c, hc, hca⟩ := Option.bind_eq_some_iff.1 htools
  obtain ⟨a, ha, hpair⟩ := List.mem_map.1 (hlist ▸ List.mem_singleton_self _)
  obtain ⟨hfrom, hholds⟩ := Prod.ext_iff.1 hpair
  obtain ⟨r, hr, -, horigin⟩ :=
    (h urlTools _ _ List.prefix_rfl s hs c (List.mem_of_getElem? hc) user tools hca a ha).registered
  -- the row holds one url, the tool was listed from another
  have hurl : r.url = a.origin.url := congrArg Origin.url horigin
  simp only [hr, Option.map_some, Option.some.injEq] at hholds
  rw [hholds] at hurl
  have habs : ['b'] = ['a'] := hurl.trans hfrom
  cases habs

end Portal.McpServers
