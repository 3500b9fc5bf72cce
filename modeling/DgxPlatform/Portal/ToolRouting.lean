import DgxPlatform.Lib.Framing
import DgxPlatform.Portal.McpServers

/-! # The functions of the support chat and what they run

`extra_tools` announces to the model, besides the built-in functions, the tools of the
user's MCP servers, the history tools and the skill tools, and maps the name of each to
what a call of it runs. The name of an MCP tool is its server's id and the tool's name,
sanitised and cut; an entry of the map replaces the one of the same name.

`routed_as_announced_iff`: the names differ, and each runs what was announced under it,
exactly when no server lists two tools whose names are cut alike.
-/

namespace Portal.ToolRouting

open McpServers

/-- `Route`: what an extra tool runs. -/
inductive Route where
  | mcp (serverId : Nat) (serverName toolName : List Char)
  | chats
  | skill
deriving DecidableEq, Repr

structure SkillRow where
  name : List Char
  description : List Char

def functionTool (name description : List Char) (parameters : Json) : Json :=
  .obj [("type", .str "function".toList), ("function", .obj [
    ("name", .str name), ("description", .str description), ("parameters", parameters)])]

/-- `t["function"]["name"]`. -/
def functionName (tool : Json) : List Char :=
  (((tool.get? "function").bind fun f => f.get? "name").bind Json.str?).getD []

def parameter (type description : String) : Json :=
  .obj [("type", .str type.toList), ("description", .str description.toList)]

/-- `history_tools`. -/
def historyTools : List Json :=
  [functionTool "search_conversations".toList
      ("Search the user's PAST conversations (their own history) for earlier context: " ++
        "returns matching conversations with a snippet.").toList
      (.obj [("type", .str "object".toList),
        ("properties", .obj [("query", parameter "string" "Keywords to look for.")]),
        ("required", .arr [.str "query".toList])]),
    functionTool "recent_conversations".toList
      "List the user's most recent conversations with their opening request.".toList
      (.obj [("type", .str "object".toList),
        ("properties", .obj [("count", parameter "integer" "How many (1-10).")])])]

/-- `skill_tools`: none without a skill. -/
def skillTools (rows : List SkillRow) : List Json :=
  if rows.isEmpty then []
  else
    let catalog := (['\n'].intercalate (rows.map fun r => "- ".toList ++ r.name ++ ": ".toList ++ r.description)).take 6000
    let name := Json.obj [("type", .str "string".toList), ("enum", .arr (rows.map fun r => .str r.name))]
    [functionTool "use_skill".toList
        (("Load the instructions of one of the user's skills when the task matches its description. " ++
          "Available skills:\n").toList ++ catalog)
        (.obj [("type", .str "object".toList), ("properties", .obj [("name", name)]),
          ("required", .arr [.str "name".toList])]),
      functionTool "read_skill_file".toList
        "Read a file bundled with a skill (script, reference, template), as listed by use_skill.".toList
        (.obj [("type", .str "object".toList),
          ("properties", .obj [("name", name), ("path", .obj [("type", .str "string".toList)])]),
          ("required", .arr [.str "name".toList, .str "path".toList])])]

/-- The names of `tools(is_admin)`, the built-in functions. -/
def builtinNames (isAdmin : Bool) : List (List Char) :=
  ["create_api_key", "revoke_api_key", "request_budget", "request_model"].map String.toList ++
    if isAdmin then ["launch_model", "stop_model", "read_logs", "manage_service"].map String.toList else []

/-! ## `extra_tools` -/

/-- What one round of a loop of `extra_tools` adds. -/
structure Offer where
  name : List Char
  spec : Json
  route : Route

/-- The list of tools, and the map from names to routes. -/
structure Extra where
  tools : List Json
  routing : List Char → Option Route

def Extra.push (e : Extra) (o : Offer) : Extra where
  tools := e.tools ++ [o.spec]
  routing := Function.update e.routing o.name (some o.route)

/-- The enabled servers of the user, as the query returns them. -/
def enabledServers (servers : Table Server Server.id) (user : List Char) : List Server :=
  servers.rows.filter fun r => r.username = user ∧ r.enabled

/-- The tools of the servers, `listed` by `list_tools_cached` for each. -/
def mcpTools (rows : List Server) (listed : Nat → List Json) : List Announced :=
  rows.flatMap fun r => announce r (listed r.id) r.origin

def mcpOffer (a : Announced) : Offer :=
  ⟨a.prefixed, a.spec, .mcp a.server.id a.server.name a.name⟩

def offers (rows : List Server) (listed : Nat → List Json) (searchEnabled : Bool) (skills : List SkillRow) :
    List Offer :=
  (mcpTools rows listed).map mcpOffer ++
    ((if searchEnabled then historyTools else []).map fun t => ⟨functionName t, t, .chats⟩) ++
    (skillTools skills).map fun t => ⟨functionName t, t, .skill⟩

/-- `extra_tools`. -/
def extraTools (rows : List Server) (listed : Nat → List Json) (searchEnabled : Bool)
    (skills : List SkillRow) : Extra :=
  (offers rows listed searchEnabled skills).foldl Extra.push ⟨[], fun _ => none⟩

/-- The announced names differ from each other and from the built-in ones, each is mapped
to the tool that was announced under it, and no built-in name is mapped. -/
structure RoutedAsAnnounced (isAdmin : Bool) (announced : List Offer) (e : Extra) : Prop where
  distinct : (builtinNames isAdmin ++ e.tools.map functionName).Nodup
  routed : ∀ o ∈ announced, o.spec ∈ e.tools ∧ e.routing (functionName o.spec) = some o.route
  builtin : ∀ n ∈ builtinNames isAdmin, e.routing n = none

/-- A tool's name within its server: sanitised and cut. -/
def safeName (t : Json) : List Char :=
  ((((t.get? "name").bind Json.str?).getD []).map fun c =>
    if c.isAlphanum ∨ c = '_' ∨ c = '-' then c else '_').take 60

/-! ## The map -/

theorem foldl_push_tools (os : List Offer) (e : Extra) :
    (os.foldl Extra.push e).tools = e.tools ++ os.map Offer.spec := by
  induction os generalizing e with
  | nil => exact (List.append_nil _).symm
  | cons o os ih =>
    rw [List.foldl_cons, ih, List.map_cons]
    exact List.append_assoc _ _ _

theorem foldl_push_other {os : List Offer} {e : Extra} {n : List Char} (h : n ∉ os.map Offer.name) :
    (os.foldl Extra.push e).routing n = e.routing n := by
  induction os generalizing e with
  | nil => rfl
  | cons o os ih =>
    rw [List.map_cons, List.mem_cons, not_or] at h
    rw [List.foldl_cons, ih h.2]
    exact Function.update_of_ne h.1 _ _

theorem foldl_push_routing {os : List Offer} {e : Extra} (h : (os.map Offer.name).Nodup) :
    ∀ o ∈ os, (os.foldl Extra.push e).routing o.name = some o.route := by
  induction os generalizing e with
  | nil => exact List.forall_mem_nil _
  | cons o os ih =>
    rw [List.map_cons, List.nodup_cons] at h
    rw [List.foldl_cons]
    refine List.forall_mem_cons.2 ⟨?_, ih h.2⟩
    rw [foldl_push_other h.1]
    exact Function.update_self _ _ _

theorem functionName_spec (a : Announced) : functionName a.spec = a.prefixed := rfl

theorem functionName_offer {rows : List Server} {listed : Nat → List Json} {searchEnabled : Bool}
    {skills : List SkillRow} : ∀ o ∈ offers rows listed searchEnabled skills, functionName o.spec = o.name := by
  intro o ho
  unfold offers at ho
  rw [List.mem_append, List.mem_append] at ho
  rcases ho with (ho | ho) | ho
  · obtain ⟨a, -, rfl⟩ := List.mem_map.1 ho
    exact functionName_spec a
  · obtain ⟨t, -, rfl⟩ := List.mem_map.1 ho
    rfl
  · obtain ⟨t, -, rfl⟩ := List.mem_map.1 ho
    rfl

/-! ## The names -/

/-- The names of the history and skill tools. -/
def LIBRARY_NAMES : List (List Char) :=
  ["search_conversations", "recent_conversations", "use_skill", "read_skill_file"].map String.toList

theorem libraryNames_sublist (searchEnabled : Bool) (skills : List SkillRow) :
    ((if searchEnabled then historyTools else []).map functionName ++ (skillTools skills).map functionName).Sublist
      LIBRARY_NAMES := by
  have hhistory : ((if searchEnabled then historyTools else []).map functionName).Sublist
      (["search_conversations", "recent_conversations"].map String.toList) := by
    cases searchEnabled with
    | false => exact List.nil_sublist _
    | true => exact List.Sublist.refl _
  have hskills : ((skillTools skills).map functionName).Sublist
      (["use_skill", "read_skill_file"].map String.toList) := by
    unfold skillTools
    split
    · exact List.nil_sublist _
    · exact List.Sublist.refl _
  exact hhistory.append hskills

theorem fixedNames (isAdmin : Bool) :
    (builtinNames isAdmin ++ LIBRARY_NAMES).Nodup ∧
      ∀ n ∈ builtinNames isAdmin ++ LIBRARY_NAMES, ¬ "mcp_".toList <+: n := by
  cases isAdmin with
  | false => decide +kernel
  | true => decide +kernel

theorem prefixed_eq (a : Announced) :
    a.prefixed = "mcp_".toList ++ ((toString a.server.id).toList ++ '_' :: safeName a.tool) := rfl

theorem underscore_not_mem_id (n : Nat) : '_' ∉ (toString n).toList := by
  rw [Nat.toString_eq_repr, Nat.toList_repr]
  intro hmem
  exact absurd (Nat.isDigit_of_mem_toDigits (by decide) (by decide) hmem) (by decide)

theorem prefixed_inj {a b : Announced} (h : a.prefixed = b.prefixed) :
    a.server.id = b.server.id ∧ safeName a.tool = safeName b.tool := by
  rw [prefixed_eq, prefixed_eq] at h
  have hrest := List.append_cancel_left h
  obtain ⟨hid, hname⟩ := Framing.eq_of_first (underscore_not_mem_id _) (underscore_not_mem_id _) hrest
  refine ⟨?_, hname⟩
  rw [Nat.toString_eq_repr, Nat.toString_eq_repr, Nat.toList_repr, Nat.toList_repr] at hid
  have hvalue := congrArg (Nat.ofDigitChars 10 · 0) hid
  rwa [Nat.ofDigitChars_toDigits (by decide) (by decide), Nat.ofDigitChars_toDigits (by decide) (by decide)] at hvalue

theorem mem_announce {r : Server} {tools : List Json} {o : Origin} {a : Announced}
    (h : a ∈ announce r tools o) : a.server = r := by
  obtain ⟨t, -, rfl⟩ := List.mem_map.1 h
  rfl

/-- The names of one server's tools differ when they are cut to different texts. -/
theorem nodup_announce (r : Server) (tools : List Json) (o : Origin) :
    ((announce r tools o).map Announced.prefixed).Nodup ↔ ((allowedTools r tools).map safeName).Nodup := by
  unfold announce
  rw [List.map_map]
  have hname : Announced.prefixed ∘ (fun t => (⟨r, t, o⟩ : Announced)) =
      (fun n => "mcp_".toList ++ ((toString r.id).toList ++ '_' :: n)) ∘ safeName := rfl
  rw [hname, ← List.map_map]
  refine List.nodup_map_iff fun n m h => ?_
  have hrest := List.append_cancel_left (List.append_cancel_left h)
  exact (List.cons.inj hrest).2

/-- The names of all servers' tools differ when those of each server do. -/
theorem nodup_mcpTools {rows : List Server} (hids : (rows.map Server.id).Nodup) (listed : Nat → List Json) :
    ((mcpTools rows listed).map Announced.prefixed).Nodup ↔
      ∀ r ∈ rows, ((allowedTools r (listed r.id)).map safeName).Nodup := by
  unfold mcpTools
  rw [List.map_flatMap, List.nodup_flatMap]
  constructor
  · intro h r hr
    exact (nodup_announce r _ _).1 (h.1 r hr)
  · intro h
    refine ⟨fun r hr => (nodup_announce r _ _).2 (h r hr), ?_⟩
    refine (List.pairwise_map.1 hids).imp ?_
    -- two servers have different ids, and so do their tools' names
    intro r q hne n hn hn'
    obtain ⟨a, ha, rfl⟩ := List.mem_map.1 hn
    obtain ⟨b, hb, hab⟩ := List.mem_map.1 hn'
    have hid := (prefixed_inj hab).1
    rw [mem_announce ha, mem_announce hb] at hid
    exact hne hid.symm

theorem not_mem_fixed_of_announced (isAdmin : Bool) (a : Announced) :
    a.prefixed ∉ builtinNames isAdmin ++ LIBRARY_NAMES := by
  intro hmem
  refine (fixedNames isAdmin).2 _ hmem ?_
  rw [prefixed_eq]
  exact List.prefix_append _ _

/-! ## When each name runs its own tool -/

section Offers

variable {rows : List Server} {listed : Nat → List Json} {searchEnabled : Bool} {skills : List SkillRow}

theorem extraTools_names :
    (extraTools rows listed searchEnabled skills).tools.map functionName =
      (offers rows listed searchEnabled skills).map Offer.name := by
  unfold extraTools
  rw [foldl_push_tools, List.nil_append, List.map_map]
  exact List.map_congr_left functionName_offer

theorem offers_names :
    (offers rows listed searchEnabled skills).map Offer.name =
      (mcpTools rows listed).map Announced.prefixed ++
        ((if searchEnabled then historyTools else []).map functionName ++ (skillTools skills).map functionName) := by
  unfold offers
  simp only [List.map_append, List.map_map, List.append_assoc]
  rfl

/-- The names differ, from each other and from the built-in ones, exactly when those of the
MCP tools do. -/
theorem nodup_names_iff (isAdmin : Bool) (rows : List Server) (listed : Nat → List Json) (searchEnabled : Bool)
    (skills : List SkillRow) :
    (builtinNames isAdmin ++ (offers rows listed searchEnabled skills).map Offer.name).Nodup ↔
      ((mcpTools rows listed).map Announced.prefixed).Nodup := by
  have hsub := libraryNames_sublist searchEnabled skills
  have hfixed : (builtinNames isAdmin ++ ((if searchEnabled then historyTools else []).map functionName ++
      (skillTools skills).map functionName)).Nodup :=
    (fixedNames isAdmin).1.sublist ((List.Sublist.refl _).append hsub)
  rw [offers_names]
  constructor
  · intro h
    exact (h.of_append_right).of_append_left
  · intro h
    rw [List.nodup_append] at hfixed
    refine List.nodup_append.2 ⟨hfixed.1, List.nodup_append.2 ⟨h, hfixed.2.1, ?_⟩, ?_⟩
    · rintro n hn m hm rfl
      obtain ⟨a, -, rfl⟩ := List.mem_map.1 hn
      exact not_mem_fixed_of_announced isAdmin a (List.mem_append_right _ (hsub.subset hm))
    · rintro n hn m hm rfl
      rcases List.mem_append.1 hm with hm | hm
      · obtain ⟨a, -, rfl⟩ := List.mem_map.1 hm
        exact not_mem_fixed_of_announced isAdmin a (List.mem_append_left _ hn)
      · exact hfixed.2.2 n hn n hm rfl

end Offers

/-- For every table of servers, every answer of theirs and all other extra tools: the
announced names differ, also from the built-in ones, and each is mapped to what was
announced under it, exactly when no enabled server of the user lists two allowed tools
whose names are cut to the same text. -/
theorem routed_as_announced_iff (servers : Table Server Server.id) (user : List Char)
    (listed : Nat → List Json) (searchEnabled : Bool) (skills : List SkillRow) (isAdmin : Bool) :
    RoutedAsAnnounced isAdmin (offers (enabledServers servers user) listed searchEnabled skills)
        (extraTools (enabledServers servers user) listed searchEnabled skills) ↔
      ∀ r ∈ enabledServers servers user, ((allowedTools r (listed r.id)).map safeName).Nodup := by
  have hids : ((enabledServers servers user).map Server.id).Nodup :=
    servers.nodup.sublist (List.filter_sublist.map Server.id)
  rw [← nodup_mcpTools hids, ← nodup_names_iff isAdmin _ listed searchEnabled skills,
    ← extraTools_names]
  constructor
  · exact RoutedAsAnnounced.distinct
  · intro hdistinct
    rw [extraTools_names] at hdistinct
    obtain ⟨-, hnames, hapart⟩ := List.nodup_append.1 hdistinct
    refine ⟨by rwa [extraTools_names], fun o ho => ⟨?_, ?_⟩, fun n hn => ?_⟩
    · unfold extraTools
      rw [foldl_push_tools]
      exact List.mem_append_right _ (List.mem_map_of_mem ho)
    · rw [functionName_offer o ho]
      exact foldl_push_routing hnames o ho
    · exact foldl_push_other fun hmem => hapart n hn n hmem rfl

/-! ## A server with two tools -/

def sampleServers : Table Server Server.id where
  rows := [⟨7, "anne".toList, "Fichiers".toList, "https://mcp.example.org".toList, none, [], [], true⟩]
  nodup := List.nodup_singleton _

def tool (name : String) : Json := .obj [("name", .str name.toList)]

/-- Of two tools whose names are cut alike the model's calls of both run the second. -/
theorem not_routed_dotted :
    ¬ RoutedAsAnnounced false
        (offers (enabledServers sampleServers "anne".toList) (fun _ => [tool "read.file", tool "read_file"]) false [])
        (extraTools (enabledServers sampleServers "anne".toList) (fun _ => [tool "read.file", tool "read_file"])
          false []) ∧
      (extraTools (enabledServers sampleServers "anne".toList) (fun _ => [tool "read.file", tool "read_file"])
          false []).routing "mcp_7_read_file".toList =
        some (.mcp 7 "Fichiers".toList "read_file".toList) := by
  refine ⟨fun h => ?_, by decide +kernel⟩
  exact absurd h.distinct (by decide +kernel)

end Portal.ToolRouting
