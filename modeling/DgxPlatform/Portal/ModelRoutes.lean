import DgxPlatform.Lib.Json
import DgxPlatform.Lib.Table
import DgxPlatform.Lib.Text
import DgxPlatform.Portal.Conversations

/-! # The routes of the models in LiteLLM

LiteLLM keeps a list of routes and balances between those of one name. Replacing
a route takes up to four calls (list, delete, create, and restore when the
creation is refused), each of which may be carried out, refused or left without
an answer.

* `replace` is what `upsert` and `registerDecisions` share.
-/

namespace Portal.ModelRoutes

open Conversations (truthy)

/-! ## The routes -/

abbrev Id := List Char

abbrev Fields := List (String × Json)

structure Route where
  id : Id
  name : List Char
  params : Fields
  info : Fields

/-- An element of `/model/info`. -/
def Route.json (r : Route) : Json :=
  .obj [("model_name", .str r.name), ("litellm_params", .obj r.params),
    ("model_info", .obj (("id", .str r.id) :: r.info))]

/-- The fields that LiteLLM stamps on a route. -/
def ofLiteLLM (key : String) : Bool := key == "id" || key == "db_model"

def ownInfo (info : Fields) : Fields := info.filter fun f => !ofLiteLLM f.1

/-- A route up to its id and `db_model`. -/
def Route.content (r : Route) : List Char × Fields × Fields := (r.name, r.params, ownInfo r.info)

def fieldsOf : Option Json → Fields
  | some (.obj fields) => fields
  | _ => []

/-- The route that LiteLLM makes of a body of `/model/new`. -/
def routeOf (id : Id) (body : Json) : Route where
  id := id
  name := ((body.get? "model_name").bind Json.str?).getD []
  params := fieldsOf (body.get? "litellm_params")
  info := fieldsOf (body.get? "model_info")

/-- LiteLLM's routes. An id is never given out twice. -/
structure Registry where
  table : Table Route Route.id
  used : List Id
  known : ∀ r ∈ table.rows, r.id ∈ used

namespace Registry

def routes (g : Registry) : List Route := g.table.rows

/-- The routes of a name: a request for it goes to any of them. -/
def named (g : Registry) (n : List Char) : List Route := g.routes.filter fun r => r.name = n

/-- The routes of the other names. -/
def others (g : Registry) (n : List Char) : List Route := g.routes.filter fun r => r.name ≠ n

/-- `POST /model/delete`. -/
def delete (g : Registry) (id : Id) : Registry where
  table := g.table.delete fun r => r.id = id
  used := g.used
  known := fun r hr => g.known r (List.mem_of_mem_filter hr)

/-- `POST /model/new` with the id that LiteLLM draws. -/
def new (g : Registry) (id : Id) (body : Json) (h : id ∉ g.used) : Registry where
  table := g.table.insert (routeOf id body) (by
    refine List.find?_eq_none.2 fun r hr => ?_
    simp only [decide_eq_true_eq]
    rintro (rfl : r.id = id)
    exact h (g.known r hr))
  used := id :: g.used
  known := by
    intro r hr
    rcases List.mem_append.1 hr with hr | hr
    · exact List.mem_cons_of_mem id (g.known r hr)
    · rw [List.mem_singleton.1 hr]
      exact List.mem_cons_self

/-- `GET /model/info`. -/
def modelInfo (g : Registry) : Json := .obj [("data", .arr (g.routes.map Route.json))]

end Registry

/-! ## Replacing a route -/

/-- What becomes of a call: carried out, refused without effect, or no answer
without effect. -/
inductive Reply where
  | done
  | refused
  | silent
deriving DecidableEq, Repr

/-- What becomes of the four calls of a replacement. -/
structure Replies where
  list : Reply
  delete : Reply
  create : Reply
  restore : Reply
deriving DecidableEq, Repr

/-- The portal's environment, with `serde_json`'s text of a value that is no string. -/
structure Env where
  key : List Char
  engineBase : List Char
  decisionsBase : List Char
  autoModel : List Char
  decisionModel : List Char
  text : Json → List Char

/-- The ids that LiteLLM draws. -/
structure Drawn where
  next : List Id → Id
  fresh : ∀ used, next used ∉ used

/-- The JSON that `GET /model/info` answers; a refusal carries no `data`. -/
def listed (g : Registry) : Reply → Option Json
  | .done => some g.modelInfo
  | .refused => some (.obj [("error", .null)])
  | .silent => none

/-- The id of a listed route. -/
def idOf (env : Env) (m : Json) : Option Id :=
  match (m.get? "model_info").bind (Json.get? "id") with
  | none => none
  | some .null => none
  | some (.str s) => some s
  | some v => some (env.text v)

/-- `entry`: the first route of the name. -/
def entry (env : Env) (name : List Char) (got : Option Json) : Option Id × Option Json :=
  let data := ((got.bind (Json.get? "data")).bind Json.arr?).getD []
  match data.find? fun m => (m.get? "model_name").bind Json.str? = some name with
  | some m => (idOf env m, some m)
  | none => (none, none)

/-- The body of `restore`. -/
def restored (e : Json) : Json :=
  .obj [("model_name", (e.get? "model_name").getD .null),
    ("litellm_params", ((e.get? "litellm_params").filter truthy).getD (.obj [])),
    ("model_info", .obj (ownInfo (fieldsOf (e.get? "model_info"))))]

/-- The deletion of the route found, if one was. -/
def Registry.drop (g : Registry) (existing : Option Id) (reply : Reply) : Registry :=
  match existing, reply with
  | some id, .done => g.delete id
  | _, _ => g

/-- A call of `/model/new`. -/
def Registry.create (g : Registry) (drawn : Drawn) (body : Json) : Reply → Registry
  | .done => g.new (drawn.next g.used) body (drawn.fresh g.used)
  | .refused | .silent => g

/-- What `upsert` and `register_decisions` do with their body. -/
def replace (env : Env) (drawn : Drawn) (a : Replies) (name : List Char) (body : Json)
    (g : Registry) : Bool × Registry :=
  if env.key = [] then (false, g)
  else
    let found := entry env name (listed g a.list)
    let g₁ := g.drop found.1 a.delete
    match a.create, found with
    | .silent, _ => (false, g₁)
    | .done, _ => (true, g₁.create drawn body .done)
    | .refused, (some _, some prev) => (false, g₁.create drawn (restored prev) a.restore)
    | .refused, _ => (false, g₁)

/-- The body of `upsert`. -/
def chatBody (env : Env) (publicName upstream : List Char) (maxInput maxOutput : Int) : Json :=
  .obj [("model_name", .str publicName),
    ("litellm_params", .obj [
      ("model", .str ("openai/".toList ++ upstream)),
      ("api_base", .str env.engineBase),
      ("api_key", .str "dummy".toList),
      ("input_cost_per_token", .num 1),
      ("output_cost_per_token", .num 1),
      -- reasoning off by default; the Anthropic endpoint only forwards `extra_body`
      ("chat_template_kwargs", .obj [("enable_thinking", .bool false)]),
      ("extra_body", .obj [("chat_template_kwargs", .obj [("enable_thinking", .bool false)])])]),
    ("model_info", .obj [
      ("mode", .str "chat".toList),
      ("supports_function_calling", .bool true),
      ("max_input_tokens", .num maxInput),
      ("max_output_tokens", .num maxOutput)])]

def upsert (env : Env) (drawn : Drawn) (a : Replies) (publicName upstream : List Char)
    (maxInput maxOutput : Int) (g : Registry) : Bool × Registry :=
  replace env drawn a publicName (chatBody env publicName upstream maxInput maxOutput) g

/-- The body of `register_decisions`. -/
def decisionsBody (env : Env) (name : List Char) : Json :=
  .obj [("model_name", .str name),
    ("litellm_params", .obj [
      ("model", .str ("hosted_vllm/".toList ++ name)),
      ("api_base", .str env.decisionsBase),
      ("api_key", .str "dummy".toList),
      ("input_cost_per_token", .num 1),
      ("output_cost_per_token", .num 1)]),
    ("model_info", .obj [("mode", .str "decisions".toList)])]

def registerDecisions (env : Env) (drawn : Drawn) (a : Replies) (name : List Char)
    (g : Registry) : Bool × Registry :=
  replace env drawn a name (decisionsBody env name) g

/-! ## What the calls leave -/

variable {env : Env} {drawn : Drawn} {g : Registry} {n name : List Char}

theorem Registry.named_new {id : Id} {body : Json} {h : id ∉ g.used} :
    (g.new id body h).named n =
      g.named n ++ if (routeOf id body).name = n then [routeOf id body] else [] := by
  simp [Registry.named, Registry.routes, Registry.new, Table.insert, List.filter_append,
    List.filter_cons]

theorem Registry.others_new {id : Id} {body : Json} {h : id ∉ g.used}
    (hn : (routeOf id body).name = n) : (g.new id body h).others n = g.others n := by
  simp [Registry.others, Registry.routes, Registry.new, Table.insert, List.filter_append, hn]

theorem Registry.named_eq (h : (g.named n).length ≤ 1) :
    g.named n = [] ∨ ∃ r, g.named n = [r] := by
  cases hr : g.named n with
  | nil => exact .inl rfl
  | cons r rs =>
    obtain rfl : rs = [] := List.length_eq_zero_iff.1 (by rw [hr, List.length_cons] at h; omega)
    exact .inr ⟨r, rfl⟩

theorem Registry.mem_of_named {r : Route} (h : r ∈ g.named n) : r ∈ g.routes ∧ r.name = n := by
  simpa [Registry.named] using h

/-- An id names one route: deleting a route of one name touches no other name. -/
theorem Registry.others_delete {r : Route} (h : r ∈ g.named n) :
    (g.delete r.id).others n = g.others n := by
  obtain ⟨hr, hname⟩ := Registry.mem_of_named h
  unfold Registry.others Registry.routes Registry.delete Table.delete
  rw [List.filter_filter]
  refine List.filter_congr fun q hq => ?_
  by_cases hid : q.id = r.id
  · have hqr : q = r := List.inj_on_of_nodup_map g.table.nodup hq hr hid
    simp [hqr, hname]
  · simp [hid]

theorem Registry.named_delete {r : Route} (h : g.named n = [r]) : (g.delete r.id).named n = [] := by
  rw [Registry.named, List.filter_eq_nil_iff]
  intro q hq hname
  obtain ⟨hq, hid⟩ := List.mem_filter.1 hq
  have hqn : q ∈ g.named n := List.mem_filter.2 ⟨hq, hname⟩
  rw [h, List.mem_singleton] at hqn
  simp [hqn] at hid

theorem Registry.named_delete_of_ne {id : Id} (h : ∀ r ∈ g.routes, r.id = id → r.name ≠ n) :
    (g.delete id).named n = g.named n := by
  unfold Registry.named Registry.routes Registry.delete Table.delete
  rw [List.filter_filter]
  refine List.filter_congr fun q hq => ?_
  by_cases hid : q.id = id
  · simp [hid, h q hq hid]
  · simp [hid]

/-! ## What `entry` finds -/

@[simp] theorem json_name (r : Route) : r.json.get? "model_name" = some (.str r.name) := rfl

@[simp] theorem json_params (r : Route) :
    r.json.get? "litellm_params" = some (.obj r.params) := rfl

@[simp] theorem json_info (r : Route) :
    r.json.get? "model_info" = some (.obj (("id", .str r.id) :: r.info)) := rfl

theorem idOf_json (r : Route) : idOf env r.json = some r.id := by
  unfold idOf
  rw [json_info]
  rfl

/-- `entry` finds the first route of the name, when the list is answered. -/
theorem entry_listed : entry env name (listed g .done) =
    (((g.named name).head?).map Route.id, ((g.named name).head?).map Route.json) := by
  have hfind : (g.routes.map Route.json).find?
      (fun m => (m.get? "model_name").bind Json.str? = some name) =
        ((g.named name).head?).map Route.json := by
    rw [Registry.named, List.head?_filter, List.find?_map]
    simp [Function.comp_def]
  unfold entry
  simp only [listed, Registry.modelInfo, Option.bind_some, Json.get?_obj, List.lookup_cons_self,
    Json.arr?_arr, Option.getD_some, hfind]
  cases (g.named name).head? with
  | none => rfl
  | some r => simp only [Option.map_some, idOf_json]

theorem entry_unlisted {reply : Reply} (h : reply ≠ .done) :
    entry env name (listed g reply) = (none, none) := by
  cases reply
  · exact absurd rfl h
  · rfl
  · rfl

@[simp] theorem name_restored (r : Route) (id : Id) : (routeOf id (restored r.json)).name = r.name :=
  rfl

/-- Restoring a listed route creates it again, up to LiteLLM's own fields. -/
theorem content_restored (r : Route) (id : Id) :
    (routeOf id (restored r.json)).content = r.content := by
  have hparams : fieldsOf (some (((some (Json.obj r.params)).filter truthy).getD (.obj []))) =
      r.params := by
    cases hp : r.params with
    | nil => rfl
    | cons f fs => rfl
  have hinfo : ownInfo (ownInfo (("id", .str r.id) :: r.info)) = ownInfo r.info := by
    simp [ownInfo, ofLiteLLM]
  exact Prod.ext rfl (Prod.ext hparams hinfo)

/-! ## The outcome of a replacement -/

variable {a : Replies} {body : Json} {r : Route}

theorem Registry.named_create (drawn : Drawn) (g : Registry)
    (hbody : ∀ id, (routeOf id body).name = n) :
    ∃ id, (g.create drawn body .done).named n = g.named n ++ [routeOf id body] :=
  ⟨_, by rw [Registry.create, Registry.named_new, if_pos (hbody _)]⟩

theorem Registry.others_create (hbody : ∀ id, (routeOf id body).name = n) (reply : Reply) :
    (g.create drawn body reply).others n = g.others n := by
  cases reply
  · exact Registry.others_new (h := drawn.fresh g.used) (hbody _)
  · rfl
  · rfl

theorem Registry.create_of_ne {reply : Reply} (h : reply ≠ .done) :
    g.create drawn body reply = g := by
  cases reply
  · exact absurd rfl h
  · rfl
  · rfl

theorem Registry.drop_of_ne {id : Id} {reply : Reply} (h : reply ≠ .done) :
    g.drop (some id) reply = g := by
  cases reply
  · exact absurd rfl h
  · rfl
  · rfl

theorem Registry.others_drop (h : g.named n = [r]) (reply : Reply) :
    (g.drop (some r.id) reply).others n = g.others n := by
  cases reply
  · exact Registry.others_delete (by rw [h]; exact List.mem_singleton_self r)
  · rfl
  · rfl

theorem replace_of_none (hkey : env.key ≠ [])
    (hfound : entry env name (listed g a.list) = (none, none)) :
    replace env drawn a name body g =
      if a.create = .done then (true, g.create drawn body .done) else (false, g) := by
  unfold replace
  simp only [if_neg hkey, hfound]
  cases a.create <;> rfl

theorem replace_of_some (hkey : env.key ≠ [])
    (hfound : entry env name (listed g a.list) = (some r.id, some r.json)) :
    replace env drawn a name body g =
      match a.create with
      | .done => (true, (g.drop (some r.id) a.delete).create drawn body .done)
      | .refused =>
        (false, (g.drop (some r.id) a.delete).create drawn (restored r.json) a.restore)
      | .silent => (false, g.drop (some r.id) a.delete) := by
  unfold replace
  simp only [if_neg hkey, hfound]
  cases a.create <;> rfl

/-! ## Neither lost nor doubled -/

/-- A call that answers true leaves the new route alone under the name, one that answers
false leaves the routes of the name as they were, up to LiteLLM's own fields; the other
names keep theirs. -/
structure Kept (name : List Char) (body : Json) (g : Registry) (out : Bool × Registry) : Prop where
  replaced : out.1 = true → ∃ id, out.2.named name = [routeOf id body]
  unchanged : out.1 = false →
    (out.2.named name).map Route.content = (g.named name).map Route.content
  others : out.2.others name = g.others name

theorem kept_self : Kept name body g (false, g) := ⟨by simp, fun _ => rfl, rfl⟩

/-- The answers on which a route that exists is replaced or kept. -/
def Sound (a : Replies) : Prop :=
  if a.list = .done then
    if a.delete = .done then a.create = .done ∨ (a.create = .refused ∧ a.restore = .done)
    else a.create = .silent ∨ (a.create = .refused ∧ a.restore ≠ .done)
  else a.create ≠ .done

instance (a : Replies) : Decidable (Sound a) := by
  unfold Sound
  infer_instance

/-- Where nothing is listed, the route is created beside those that are there. -/
theorem kept_of_unlisted (hkey : env.key ≠ []) (hbody : ∀ id, (routeOf id body).name = name)
    (hfound : entry env name (listed g a.list) = (none, none)) :
    Kept name body g (replace env drawn a name body g) ↔ a.create = .done → g.named name = [] := by
  rw [replace_of_none hkey hfound]
  by_cases hc : a.create = .done
  · rw [if_pos hc]
    obtain ⟨id, hnamed⟩ := Registry.named_create drawn g hbody
    constructor
    · intro hkept _
      obtain ⟨id', hone⟩ := hkept.replaced rfl
      have hlen := congrArg List.length (hnamed.symm.trans hone)
      simpa using hlen
    · intro hnone
      refine ⟨fun _ => ⟨id, ?_⟩, by simp, Registry.others_create hbody .done⟩
      rw [hnamed, hnone hc, List.nil_append]
  · rw [if_neg hc]
    exact iff_of_true kept_self fun h => absurd h hc

/-- Where the one route of the name is listed, it depends on whether the deletion is carried
out what the other calls must do. -/
theorem kept_of_listed (hkey : env.key ≠ []) (hbody : ∀ id, (routeOf id body).name = name)
    (hone : g.named name = [r])
    (hfound : entry env name (listed g a.list) = (some r.id, some r.json)) :
    Kept name body g (replace env drawn a name body g) ↔
      if a.delete = .done then a.create = .done ∨ (a.create = .refused ∧ a.restore = .done)
      else a.create = .silent ∨ (a.create = .refused ∧ a.restore ≠ .done) := by
  have hrname : r.name = name :=
    (Registry.mem_of_named (by rw [hone]; exact List.mem_singleton_self r)).2
  have hback : ∀ id, (routeOf id (restored r.json)).name = name := fun _ => hrname
  rw [replace_of_some hkey hfound]
  have hothers := Registry.others_drop hone a.delete
  by_cases hdel : a.delete = .done
  · -- the old route is gone: one must be created, the new one or the old one again
    have hgone : (g.drop (some r.id) .done).named name = [] := Registry.named_delete hone
    rw [if_pos hdel]
    rw [hdel] at hothers ⊢
    cases hc : a.create with
    | done =>
      obtain ⟨id, hnamed⟩ := Registry.named_create drawn (g.drop (some r.id) .done) hbody
      refine iff_of_true ⟨fun _ => ⟨id, ?_⟩, by simp, ?_⟩ (.inl rfl)
      · rw [hnamed, hgone, List.nil_append]
      · rw [Registry.others_create hbody, hothers]
    | silent =>
      refine iff_of_false (fun hkept => ?_) (by simp)
      have h := hkept.unchanged rfl
      rw [hgone, hone] at h
      cases h
    | refused =>
      by_cases hr : a.restore = .done
      · obtain ⟨id, hnamed⟩ := Registry.named_create drawn (g.drop (some r.id) .done) hback
        refine iff_of_true ⟨by simp, fun _ => ?_, ?_⟩ (.inr ⟨rfl, hr⟩)
        · rw [hr, hnamed, hgone, hone, List.nil_append, List.map_singleton, List.map_singleton,
            content_restored]
        · rw [Registry.others_create hback, hothers]
      · refine iff_of_false (fun hkept => ?_) (by simp [hr])
        have h := hkept.unchanged rfl
        rw [Registry.create_of_ne hr, hgone, hone] at h
        cases h
  · -- the old route is still there: none may be created
    have hsame : g.drop (some r.id) a.delete = g := Registry.drop_of_ne hdel
    rw [if_neg hdel, hsame]
    cases hc : a.create with
    | done =>
      refine iff_of_false (fun hkept => ?_) (by simp)
      obtain ⟨id, hnamed⟩ := Registry.named_create drawn g hbody
      obtain ⟨id', h⟩ := hkept.replaced rfl
      rw [hnamed, hone] at h
      cases h
    | silent => exact iff_of_true kept_self (.inl rfl)
    | refused =>
      by_cases hr : a.restore = .done
      · refine iff_of_false (fun hkept => ?_) (by simp [hr])
        obtain ⟨id, hnamed⟩ := Registry.named_create drawn g hback
        have h := hkept.unchanged rfl
        rw [hr, hnamed, hone] at h
        simp at h
      · rw [Registry.create_of_ne hr]
        exact iff_of_true kept_self (.inr ⟨rfl, hr⟩)

/-- A replacement keeps the route exactly when nothing is tried, there was no route, or the
answers are sound. -/
theorem kept_iff (hbody : ∀ id, (routeOf id body).name = name)
    (hone : (g.named name).length ≤ 1) :
    Kept name body g (replace env drawn a name body g) ↔
      env.key = [] ∨ g.named name = [] ∨ Sound a := by
  by_cases hkey : env.key = []
  · rw [replace, if_pos hkey]
    exact iff_of_true kept_self (.inl hkey)
  · rcases Registry.named_eq hone with hnone | ⟨r, hr⟩
    · have hfound : entry env name (listed g a.list) = (none, none) := by
        by_cases hlist : a.list = .done
        · rw [hlist, entry_listed, hnone]
          rfl
        · exact entry_unlisted hlist
      rw [kept_of_unlisted hkey hbody hfound]
      exact iff_of_true (fun _ => hnone) (.inr (.inl hnone))
    · have hnone : g.named name ≠ [] := by
        rw [hr]
        exact List.cons_ne_nil r []
      unfold Sound
      by_cases hlist : a.list = .done
      · rw [kept_of_listed hkey hbody hr (by rw [hlist, entry_listed, hr]; rfl), if_pos hlist]
        simp only [hkey, hnone, false_or]
      · rw [kept_of_unlisted hkey hbody (entry_unlisted hlist), if_neg hlist]
        simp only [hkey, hnone, false_or, imp_false]

/-- `upsert` and `register_decisions` neither lose nor double a route exactly when nothing is
tried, there was none, or the answers are sound: with the route listed and deleted, the
creation is carried out, or refused and the old route restored; with the deletion not
carried out, nothing is created; with no list, nothing is created either. -/
theorem route_kept_iff (env : Env) (drawn : Drawn) (a : Replies) (n u : List Char)
    (maxInput maxOutput : Int) (g : Registry) (hone : (g.named n).length ≤ 1) :
    (Kept n (chatBody env n u maxInput maxOutput) g
        (upsert env drawn a n u maxInput maxOutput g) ↔
      env.key = [] ∨ g.named n = [] ∨ Sound a) ∧
    (Kept n (decisionsBody env n) g (registerDecisions env drawn a n g) ↔
      env.key = [] ∨ g.named n = [] ∨ Sound a) :=
  ⟨kept_iff (fun _ => rfl) hone, kept_iff (fun _ => rfl) hone⟩

/-! A registry with one route, and ids that grow. -/

def Drawn.longer : Drawn where
  next used := 'm' :: used.flatten
  fresh := by
    intro used h
    have hle := (List.sublist_flatten_of_mem h).length_le
    rw [List.length_cons] at hle
    omega

def localEnv : Env where
  key := "sk".toList
  engineBase := "http://host.docker.internal:8000/v1".toList
  decisionsBase := "http://172.19.0.1:8002/v1".toList
  autoModel := "auto-model".toList
  decisionModel := "clef".toList
  text := fun _ => []

def autoAlone : Registry where
  table :=
    { rows := [⟨['a'], localEnv.autoModel, [("model", .str "openai/qwen".toList)], []⟩]
      nodup := List.nodup_singleton _ }
  used := [['a']]
  known := by
    intro r hr
    rw [List.mem_singleton.1 hr]
    exact List.mem_singleton_self _

/-- Everything carried out: the new route is alone. -/
theorem route_kept_replaced : (autoAlone.named localEnv.autoModel).length ≤ 1 ∧
    Kept localEnv.autoModel (chatBody localEnv localEnv.autoModel "glm".toList 8 8) autoAlone
      (upsert localEnv .longer ⟨.done, .done, .done, .done⟩ localEnv.autoModel "glm".toList 8 8
        autoAlone) :=
  ⟨by decide, (route_kept_iff localEnv .longer ⟨.done, .done, .done, .done⟩ localEnv.autoModel
    "glm".toList 8 8 autoAlone (by decide)).1.2 (.inr (.inr (by decide)))⟩

/-- The creation gets no answer: the alias is deleted and nothing takes its place. -/
theorem alias_lost : (autoAlone.named localEnv.autoModel).length = 1 ∧
    ¬ Kept localEnv.autoModel (chatBody localEnv localEnv.autoModel "glm".toList 8 8) autoAlone
      (upsert localEnv .longer ⟨.done, .done, .silent, .done⟩ localEnv.autoModel "glm".toList 8 8
        autoAlone) := by
  refine ⟨by decide, fun h => ?_⟩
  have hlost := congrArg List.length (h.unchanged rfl)
  revert hlost
  decide

end Portal.ModelRoutes
