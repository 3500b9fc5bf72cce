import DgxPlatform.Lib.Calls
import DgxPlatform.Portal.ModelRoutes

/-! # Launches and the chat alias

`launch_chat` asks the runner for a model and, once the runner has accepted it,
registers the model's route and points the chat alias at it: twice a list, a
delete and a create. The runner takes one launch at a time; behind it nothing
orders the calls, so the awaits of several launches interleave.

`alias_follows`: the alias ends at the model accepted last as long as a call lists
the alias only once every call accepted before it has returned.
-/

namespace Portal.Launches

open Run Calls Text ModelRoutes

/-! ## What is advertised -/

/-- `arg_int`: the leading digits of the value of `--flag`, as an `i64`. -/
def argInt (args flag : List Char) : Option Int :=
  let words := splitWhitespace args
  ((words.zip words.tail).find? fun w => w.1 = "--".toList ++ flag).bind fun w =>
    let digits := w.2.takeWhile Char.isDigit
    let n := digits.foldl (fun n c => 10 * n + (c.toNat - '0'.toNat)) 0
    if digits ≠ [] ∧ n < 2 ^ 63 then some (n : Int) else none

def ctxFlag (engine : List Char) : List Char :=
  if engine = "llamacpp".toList then "ctx-size".toList
  else if engine = "ds4".toList then "ctx".toList
  else if engine = "exllamav3".toList then "max-seq-len".toList
  else "max-model-len".toList

/-- The context that the flags leave to one request, without `--kv-unified-per-slot`. -/
def sharedCtx (args engine : List Char) : Option Int :=
  (argInt args (ctxFlag engine)).map fun ctx =>
    if engine = "llamacpp".toList then
      let words := splitWhitespace args
      if "--kv-unified".toList ∈ words ∧ "--no-kv-unified".toList ∉ words then ctx
      else ctx / ((argInt args "parallel".toList).filter (· ≠ 0)).getD 1
    else ctx

/-- `effective_ctx`: the real context of one request. -/
def effectiveCtx (args engine : List Char) : Option Int :=
  if engine = "llamacpp".toList then
    match (argInt args "kv-unified-per-slot".toList).filter (0 < ·) with
    | some perSlot => some perSlot
    | none => sharedCtx args engine
  else sharedCtx args engine

/-- `ctx_split`: the input and the output context. -/
def ctxSplit (args engine : List Char) : Int × Int :=
  let slot := ((effectiveCtx args engine).filter (· ≠ 0)).getD 32768
  if engine ∈ ["llamacpp".toList, "ds4".toList, "exllamav3".toList] then
    let outReserve := match argInt args "n-predict".toList with
      | some n => if 0 < n ∧ n < slot then n else min 65536 (slot / 3)
      | none => min 65536 (slot / 3)
    (max (slot - outReserve) 1024, outReserve)
  else (slot, min (slot / 2) 262144)

/-! ## A launch -/

structure Launch where
  name : List Char
  args : List Char
  engine : List Char
deriving DecidableEq, Repr

/-- The engine that `launch_chat` passes on: an empty one is `vllm`. -/
def Launch.served (p : Launch) : List Char := if p.engine = [] then "vllm".toList else p.engine

/-- `upstream`: ds4 is asked for its non-thinking mode. -/
def upstream (name engine : List Char) : List Char :=
  if engine = "ds4".toList then "deepseek-chat".toList else name

def isDecisionModel (env : Env) (name : List Char) : Prop := name = env.decisionModel

instance (env : Env) (name : List Char) : Decidable (isDecisionModel env name) :=
  inferInstanceAs (Decidable (name = env.decisionModel))

/-- The two upserts of a launch: `register` and `point_auto_model`. -/
inductive Target where
  | register
  | point
deriving DecidableEq, Repr

def Target.name (env : Env) (p : Launch) : Target → List Char
  | .register => p.name
  | .point => env.autoModel

def Target.body (env : Env) (p : Launch) (t : Target) : Json :=
  let ctx := ctxSplit p.args p.served
  chatBody env (t.name env p) (upstream p.name p.served) ctx.1 ctx.2

/-- How far a call is: the runner has been asked, an upsert is under way, or it has returned. -/
inductive Pc where
  | asking
  | list (t : Target)
  | delete (t : Target) (found : Id)
  | create (t : Target)
  | returned
deriving DecidableEq, Repr

/-- A call of `launch_chat`, with its rank among the accepted ones. -/
structure Call where
  launch : Launch
  rank : Nat
  pc : Pc
deriving DecidableEq, Repr

/-- The next await, as it is answered. LiteLLM carries out what it is asked. -/
inductive Move where
  | accept
  | refuse
  | list
  | delete
  | create (id : Id)
deriving DecidableEq, Repr

/-- LiteLLM's routes, and the launches that the runner has accepted, in order. -/
structure Platform where
  registry : Registry
  accepted : List Launch

/-- Where an upsert begins: nothing is asked without the key. -/
def start (env : Env) (t : Target) (skip : Pc) : Pc := if env.key = [] then skip else .list t

/-- `point_auto_model`: the alias never designates the decision model. -/
def pointAutoModel (env : Env) (p : Launch) : Pc :=
  if isDecisionModel env p.name then .returned else start env .point .returned

/-- What follows an upsert. -/
def Target.next (env : Env) (p : Launch) : Target → Pc
  | .register => pointAutoModel env p
  | .point => .returned

def callMove (env : Env) (s : Platform) (c : Call) : Move → Option (Platform × Call)
  | .accept =>
      if c.pc = .asking then
        some ({ s with accepted := s.accepted ++ [c.launch] },
          { c with rank := s.accepted.length,
                   pc := start env .register (pointAutoModel env c.launch) })
      else none
  | .refuse => if c.pc = .asking then some (s, { c with pc := .returned }) else none
  | .list =>
      match c.pc with
      | .list t =>
          match (entry env (t.name env c.launch) (listed s.registry .done)).1 with
          | some id => some (s, { c with pc := .delete t id })
          | none => some (s, { c with pc := .create t })
      | _ => none
  | .delete =>
      match c.pc with
      | .delete t id =>
          some ({ s with registry := s.registry.delete id }, { c with pc := .create t })
      | _ => none
  | .create id =>
      match c.pc with
      | .create t =>
          if h : id ∉ s.registry.used then
            some ({ s with registry := s.registry.new id (t.body env c.launch) h },
              { c with pc := t.next env c.launch })
          else none
      | _ => none

/-- Any number of launches. -/
def launching (env : Env) : Machine Platform Launch Call Move Empty where
  first p := ⟨p, 0, .asking⟩
  move := callMove env
  env _ e := nomatch e

/-- Accepted and not yet returned. -/
def Call.inFlight (c : Call) : Prop := c.pc ≠ .asking ∧ c.pc ≠ .returned

instance (c : Call) : Decidable c.inFlight := inferInstanceAs (Decidable (_ ∧ _))

/-- The upstream of a route. -/
def routeUpstream (r : Route) : Option (List Char) := (r.params.lookup "model").bind Json.str?

/-- Exactly one route has the alias, and it leads to the model of `p`. -/
def Follows (env : Env) (g : Registry) (p : Launch) : Prop :=
  ∃ r, g.named env.autoModel = [r] ∧
    routeUpstream r = some ("openai/".toList ++ upstream p.name p.served)

/-- A call lists the alias only once every call accepted before it has returned. -/
def InTurn (env : Env) (s : Conf Platform Call) : Act Launch Move Empty → Prop
  | .move i .list =>
      match s.calls[i]? with
      | some ⟨p, rank, .list t⟩ =>
          t.name env p = env.autoModel → ∀ c ∈ s.calls, c.inFlight → rank ≤ c.rank
      | _ => True
  | _ => True

instance (env : Env) (s : Conf Platform Call) (a : Act Launch Move Empty) :
    Decidable (InTurn env s a) := by
  unfold InTurn
  split
  · split <;> infer_instance
  · infer_instance

/-- The launches are those of chat models. -/
def Chats (env : Env) : Act Launch Move Empty → Prop
  | .enter p => ¬ isDecisionModel env p.name
  | _ => True

instance (env : Env) (a : Act Launch Move Empty) : Decidable (Chats env a) := by
  unfold Chats
  split <;> infer_instance

/-- A call that nobody interrupts is `upsert` with every answer given. -/
theorem upsert_alone (env : Env) (hkey : env.key ≠ []) (drawn : Drawn) (s : Platform) (c : Call)
    {t : Target} (hpc : c.pc = .list t) :
    ∃ moves : List Move, moves.foldlM (fun r l => callMove env r.1 r.2 l) (s, c) =
      some ({ s with registry := (upsert env drawn ⟨.done, .done, .done, .done⟩
          (t.name env c.launch) (upstream c.launch.name c.launch.served)
          (ctxSplit c.launch.args c.launch.served).1 (ctxSplit c.launch.args c.launch.served).2
          s.registry).2 },
        { c with pc := t.next env c.launch }) := by
  unfold upsert replace
  cases hr : (s.registry.named (t.name env c.launch)).head? with
  | none =>
    refine ⟨[.list, .create (drawn.next s.registry.used)], ?_⟩
    simp [callMove, hpc, entry_listed, hr, hkey, drawn.fresh, Registry.drop, Registry.create,
      Target.body]
  | some r =>
    refine ⟨[.list, .delete, .create (drawn.next s.registry.used)], ?_⟩
    have hused : (s.registry.delete r.id).used = s.registry.used := rfl
    simp [callMove, hpc, entry_listed, hr, hkey, hused, drawn.fresh, Registry.drop,
      Registry.create, Target.body]

/-! ## The invariant -/

variable {env : Env} {s s' : Conf Platform Call} {c c' : Call} {i d : Nat} {g : Registry}

/-- Between the list and the create of an upsert of the alias. -/
def Call.onAlias (env : Env) (c : Call) : Prop :=
  match c.pc with
  | .delete t _ => t.name env c.launch = env.autoModel
  | .create t => t.name env c.launch = env.autoModel
  | _ => False

/-- What a call has found still holds: the route to delete has its name, and on the alias
there is no other route. -/
def Call.Fits (env : Env) (g : Registry) (c : Call) : Prop :=
  match c.pc with
  | .delete t id => id ∈ g.used ∧ (∀ r ∈ g.routes, r.id = id → r.name = t.name env c.launch) ∧
      (t.name env c.launch = env.autoModel → ∃ r, g.named env.autoModel = [r] ∧ r.id = id)
  | .create t => t.name env c.launch = env.autoModel → g.named env.autoModel = []
  | _ => True

/-- The calls in flight are the accepted ones from rank `d` on, and only the one of rank `d`
can be on the alias. -/
structure Ordered (env : Env) (s : Conf Platform Call) (d : Nat) : Prop where
  le : d ≤ s.shared.accepted.length
  chat : ∀ c ∈ s.calls, ¬ isDecisionModel env c.launch.name
  ranked : ∀ (j : Nat) (c : Call), s.calls[j]? = some c → c.inFlight →
    d ≤ c.rank ∧ s.shared.accepted[c.rank]? = some c.launch
  filled : ∀ k, d ≤ k → k < s.shared.accepted.length →
    ∃ (j : Nat) (c : Call), s.calls[j]? = some c ∧ c.inFlight ∧ c.rank = k
  distinct : ∀ (j k : Nat) (c c' : Call), s.calls[j]? = some c → s.calls[k]? = some c' →
    c.inFlight → c'.inFlight → c.rank = c'.rank → j = k
  fits : ∀ (j : Nat) (c : Call), s.calls[j]? = some c → c.Fits env s.shared.registry
  turn : ∀ (j : Nat) (c : Call), s.calls[j]? = some c → c.onAlias env → c.rank = d
  single : (∀ c ∈ s.calls, ¬ c.onAlias env) → (s.shared.registry.named env.autoModel).length ≤ 1
  settled : d = s.shared.accepted.length → ∀ p, s.shared.accepted.getLast? = some p →
    Follows env s.shared.registry p

theorem ordered_init (hone : (g.named env.autoModel).length ≤ 1) :
    Ordered env (Conf.init ⟨g, []⟩) 0 where
  le := Nat.le_refl 0
  chat := by simp [Conf.init]
  ranked := by simp [Conf.init]
  filled := by simp [Conf.init]
  distinct := by simp [Conf.init]
  fits := by simp [Conf.init]
  turn := by simp [Conf.init]
  single := fun _ => hone
  settled := by simp [Conf.init]

theorem inFlight_of_onAlias (h : c.onAlias env) : c.inFlight := by
  unfold Call.onAlias at h
  unfold Call.inFlight
  cases hpc : c.pc <;> simp [hpc] at h ⊢

/-- After a move of call `i`, a call is the moved one or another that was there before. -/
theorem getElem?_set_cases {cs : List Call} {j : Nat} {x : Call}
    (h : (cs.set i c')[j]? = some x) : (j = i ∧ x = c') ∨ (j ≠ i ∧ cs[j]? = some x) := by
  by_cases hij : i = j
  · subst hij
    rw [List.getElem?_set_self'] at h
    obtain ⟨_, _, hx⟩ := Option.map_eq_some_iff.1 h
    exact .inl ⟨rfl, hx.symm⟩
  · rw [List.getElem?_set_ne hij] at h
    exact .inr ⟨Ne.symm hij, h⟩

theorem ne_of_asking {x : Call} {j : Nat} (hi : s.calls[i]? = some c) (hpc : c.pc = .asking)
    (hj : s.calls[j]? = some x) (hx : x.inFlight) : i ≠ j := by
  rintro rfl
  obtain rfl : c = x := Option.some.inj (hi.symm.trans hj)
  exact hx.1 hpc

/-- What a call that is asking becomes does not hide another one on the alias. -/
theorem offAlias_of_set (hi : s.calls[i]? = some c) (hpc : c.pc = .asking)
    (hnone : ∀ x ∈ s.calls.set i c', ¬ x.onAlias env) : ∀ x ∈ s.calls, ¬ x.onAlias env := by
  intro x hx hxa
  obtain ⟨j, hj⟩ := List.getElem?_of_mem hx
  have hij : i ≠ j := ne_of_asking hi hpc hj (inFlight_of_onAlias hxa)
  exact hnone x (List.mem_of_getElem? (by rw [List.getElem?_set_ne hij]; exact hj)) hxa

theorem Ordered.rank_lt (h : Ordered env s d) (hi : s.calls[i]? = some c) (hc : c.inFlight) :
    d ≤ c.rank ∧ c.rank < s.shared.accepted.length := by
  obtain ⟨hle, hget⟩ := h.ranked i c hi hc
  exact ⟨hle, (List.getElem?_eq_some_iff.1 hget).1⟩

theorem Ordered.alone (h : Ordered env s d) (hi : s.calls[i]? = some c) (hc : c.inFlight)
    (hrank : c.rank = d) {j : Nat} (hj : s.calls[j]? = some c') (hji : j ≠ i) :
    ¬ c'.onAlias env := by
  intro hc'
  refine hji (h.distinct j i c' c hj hi (inFlight_of_onAlias hc') hc ?_)
  rw [h.turn j c' hj hc', hrank]

/-- A call that stays in flight and changes the routes from `g` to `g'`. -/
theorem Ordered.advance (h : Ordered env s d) (hi : s.calls[i]? = some c) (hc : c.inFlight)
    (hc' : c'.inFlight) (hrank : c'.rank = c.rank) (hlaunch : c'.launch = c.launch)
    (hothers : ∀ (j : Nat) (x : Call), s.calls[j]? = some x → j ≠ i → x.Fits env g)
    (hfits : c'.Fits env g) (hturn : c'.onAlias env → c.rank = d)
    (hsingle : (∀ (j : Nat) (x : Call), s.calls[j]? = some x → j ≠ i → ¬ x.onAlias env) →
      ¬ c'.onAlias env → (g.named env.autoModel).length ≤ 1) :
    Ordered env ⟨{ s.shared with registry := g }, s.calls.set i c'⟩ d where
  le := h.le
  chat := forall_set h.chat (hlaunch ▸ h.chat c (List.mem_of_getElem? hi))
  ranked := by
    intro j x hj hx
    rcases getElem?_set_cases hj with ⟨-, rfl⟩ | ⟨-, hj⟩
    · rw [hrank, hlaunch]
      exact h.ranked i c hi hc
    · exact h.ranked j x hj hx
  filled := by
    intro k hdk hk
    obtain ⟨j, x, hj, hx, hxk⟩ := h.filled k hdk hk
    by_cases hij : i = j
    · subst hij
      obtain rfl : c = x := Option.some.inj (hi.symm.trans hj)
      exact ⟨i, c', by rw [List.getElem?_set_self', hi]; rfl, hc', hrank.trans hxk⟩
    · exact ⟨j, x, by rw [List.getElem?_set_ne hij]; exact hj, hx, hxk⟩
  distinct := by
    intro j k x y hj hk hx hy hxy
    rcases getElem?_set_cases hj with ⟨rfl, rfl⟩ | ⟨-, hj'⟩ <;>
      rcases getElem?_set_cases hk with ⟨rfl, rfl⟩ | ⟨-, hk'⟩
    · rfl
    · exact h.distinct j k c y hi hk' hc hy (hrank.symm.trans hxy)
    · exact h.distinct j k x c hj' hi hx hc (hxy.trans hrank)
    · exact h.distinct j k x y hj' hk' hx hy hxy
  fits := by
    intro j x hj
    rcases getElem?_set_cases hj with ⟨-, rfl⟩ | ⟨hji, hj⟩
    · exact hfits
    · exact hothers j x hj hji
  turn := by
    intro j x hj hx
    rcases getElem?_set_cases hj with ⟨-, rfl⟩ | ⟨-, hj⟩
    · rw [hrank]
      exact hturn hx
    · exact h.turn j x hj hx
  single := by
    intro hnone
    refine hsingle (fun j x hj hji => hnone x ?_) (hnone c' ?_)
    · exact List.mem_of_getElem? (by rw [List.getElem?_set_ne (Ne.symm hji)]; exact hj)
    · exact List.mem_of_getElem? (i := i) (by rw [List.getElem?_set_self', hi]; rfl)
  settled := by
    -- the call itself is still to come
    intro (hd : d = s.shared.accepted.length)
    have hlt := h.rank_lt hi hc
    omega

theorem Ordered.accept (h : Ordered env s d) (hi : s.calls[i]? = some c)
    (hpc : c.pc = .asking) :
    Ordered env ⟨{ s.shared with accepted := s.shared.accepted ++ [c.launch] },
      s.calls.set i { c with rank := s.shared.accepted.length, pc := .list .register }⟩ d where
  le := by
    have := h.le
    rw [List.length_append]
    omega
  chat := forall_set h.chat (h.chat c (List.mem_of_getElem? hi))
  ranked := by
    intro j x hj hx
    rcases getElem?_set_cases hj with ⟨-, rfl⟩ | ⟨-, hj⟩
    · exact ⟨h.le, by simp⟩
    · obtain ⟨hle, hget⟩ := h.ranked j x hj hx
      refine ⟨hle, ?_⟩
      rw [List.getElem?_append_left (h.rank_lt hj hx).2]
      exact hget
  filled := by
    intro k hdk hk
    rw [List.length_append, List.length_singleton] at hk
    by_cases hkl : k = s.shared.accepted.length
    · exact ⟨i, _, by rw [List.getElem?_set_self', hi]; rfl, by simp [Call.inFlight], hkl.symm⟩
    · obtain ⟨j, x, hj, hx, hxk⟩ := h.filled k hdk (by omega)
      refine ⟨j, x, ?_, hx, hxk⟩
      rw [List.getElem?_set_ne (ne_of_asking hi hpc hj hx)]
      exact hj
  distinct := by
    intro j k x y hj hk hx hy hxy
    -- the accepted call ranks behind all others
    rcases getElem?_set_cases hj with ⟨rfl, rfl⟩ | ⟨-, hj'⟩ <;>
      rcases getElem?_set_cases hk with ⟨rfl, rfl⟩ | ⟨-, hk'⟩
    · rfl
    · have := (h.rank_lt hk' hy).2
      simp only at hxy
      omega
    · have := (h.rank_lt hj' hx).2
      simp only at hxy
      omega
    · exact h.distinct j k x y hj' hk' hx hy hxy
  fits := by
    intro j x hj
    rcases getElem?_set_cases hj with ⟨-, rfl⟩ | ⟨-, hj⟩
    · trivial
    · exact h.fits j x hj
  turn := by
    intro j x hj hx
    rcases getElem?_set_cases hj with ⟨-, rfl⟩ | ⟨-, hj⟩
    · cases hx
    · exact h.turn j x hj hx
  single := fun hnone => h.single (offAlias_of_set hi hpc hnone)
  settled := by
    intro hd
    have := h.le
    rw [List.length_append, List.length_singleton] at hd
    omega

theorem Ordered.distinct_returned (h : Ordered env s d) (j k : Nat) (x y : Call)
    (hj : (s.calls.set i { c with pc := .returned })[j]? = some x)
    (hk : (s.calls.set i { c with pc := .returned })[k]? = some y)
    (hx : x.inFlight) (hy : y.inFlight) (hxy : x.rank = y.rank) : j = k := by
  rcases getElem?_set_cases hj with ⟨-, rfl⟩ | ⟨-, hj'⟩
  · exact absurd rfl hx.2
  · rcases getElem?_set_cases hk with ⟨-, rfl⟩ | ⟨-, hk'⟩
    · exact absurd rfl hy.2
    · exact h.distinct j k x y hj' hk' hx hy hxy

theorem Ordered.refuse (h : Ordered env s d) (hi : s.calls[i]? = some c) (hpc : c.pc = .asking) :
    Ordered env ⟨s.shared, s.calls.set i { c with pc := .returned }⟩ d where
  le := h.le
  chat := forall_set h.chat (h.chat c (List.mem_of_getElem? hi))
  ranked := by
    intro j x hj hx
    rcases getElem?_set_cases hj with ⟨-, rfl⟩ | ⟨-, hj⟩
    · exact absurd rfl hx.2
    · exact h.ranked j x hj hx
  filled := by
    intro k hdk hk
    obtain ⟨j, x, hj, hx, hxk⟩ := h.filled k hdk hk
    refine ⟨j, x, ?_, hx, hxk⟩
    rw [List.getElem?_set_ne (ne_of_asking hi hpc hj hx)]
    exact hj
  distinct := h.distinct_returned
  fits := by
    intro j x hj
    rcases getElem?_set_cases hj with ⟨-, rfl⟩ | ⟨-, hj⟩
    · trivial
    · exact h.fits j x hj
  turn := by
    intro j x hj hx
    rcases getElem?_set_cases hj with ⟨-, rfl⟩ | ⟨-, hj⟩
    · cases hx
    · exact h.turn j x hj hx
  single := fun hnone => h.single (offAlias_of_set hi hpc hnone)
  settled := h.settled

/-- The call of rank `d` returns and leaves the alias at its model. -/
theorem Ordered.finish (h : Ordered env s d) (hi : s.calls[i]? = some c) (hc : c.inFlight)
    (hrank : c.rank = d)
    (hothers : ∀ (j : Nat) (x : Call), s.calls[j]? = some x → j ≠ i → x.Fits env g)
    (hfollows : Follows env g c.launch) :
    Ordered env ⟨{ s.shared with registry := g }, s.calls.set i { c with pc := .returned }⟩
      (d + 1) where
  le := by
    have := h.rank_lt hi hc
    exact hrank ▸ this.2
  chat := forall_set h.chat (h.chat c (List.mem_of_getElem? hi))
  ranked := by
    intro j x hj hx
    rcases getElem?_set_cases hj with ⟨-, rfl⟩ | ⟨hji, hj⟩
    · exact absurd rfl hx.2
    · obtain ⟨hle, hget⟩ := h.ranked j x hj hx
      have hne : x.rank ≠ d := fun hxd =>
        hji (h.distinct j i x c hj hi hx hc (hxd.trans hrank.symm))
      exact ⟨by omega, hget⟩
  filled := by
    intro k hdk hk
    obtain ⟨j, x, hj, hx, hxk⟩ := h.filled k (by omega) hk
    have hij : i ≠ j := by
      rintro rfl
      obtain rfl : c = x := Option.some.inj (hi.symm.trans hj)
      omega
    exact ⟨j, x, by rw [List.getElem?_set_ne hij]; exact hj, hx, hxk⟩
  distinct := h.distinct_returned
  fits := by
    intro j x hj
    rcases getElem?_set_cases hj with ⟨-, rfl⟩ | ⟨hji, hj⟩
    · trivial
    · exact hothers j x hj hji
  turn := by
    intro j x hj hx
    rcases getElem?_set_cases hj with ⟨-, rfl⟩ | ⟨hji, hj⟩
    · cases hx
    · exact absurd hx (h.alone hi hc hrank hj hji)
  single := by
    obtain ⟨r, hr, -⟩ := hfollows
    intro _
    simp [hr]
  settled := by
    intro hd p hp
    have hlast : s.shared.accepted[c.rank]? = some p := by
      rw [List.getLast?_eq_getElem?] at hp
      rw [← hp, hrank]
      congr 1
      have hlen : d + 1 = s.shared.accepted.length := hd
      show d = s.shared.accepted.length - 1
      omega
    obtain rfl : c.launch = p := Option.some.inj ((h.ranked i c hi hc).2.symm.trans hlast)
    exact hfollows

/-! ## The moves on the routes -/

/-- What a call has found is not changed by one that gives out new ids only, drops routes
only, and leaves the alias to the call that is on it. -/
theorem Call.Fits.of_routes {g' : Registry} (h : c.Fits env g) (hused : ∀ id ∈ g.used, id ∈ g'.used)
    (hroutes : ∀ r ∈ g'.routes, r.id ∈ g.used → r ∈ g.routes)
    (hauto : c.onAlias env → g'.named env.autoModel = g.named env.autoModel) : c.Fits env g' := by
  unfold Call.Fits at h ⊢
  unfold Call.onAlias at hauto
  split at h
  · next t id hpc =>
      obtain ⟨hid, hname, halias⟩ := h
      simp only [hpc] at hauto
      refine ⟨hused id hid, fun r hr hrid => hname r (hroutes r hr (hrid ▸ hid)) hrid, ?_⟩
      intro ht
      rw [hauto ht]
      exact halias ht
  · next t hpc =>
      simp only [hpc] at hauto
      intro ht
      rw [hauto ht]
      exact h ht
  · exact h

theorem fits_delete {id : Id} (h : c.Fits env g)
    (hauto : c.onAlias env → ∀ r ∈ g.routes, r.id = id → r.name ≠ env.autoModel) :
    c.Fits env (g.delete id) :=
  h.of_routes (fun _ hid => hid) (fun _ hr _ => List.mem_of_mem_filter hr)
    fun hc => Registry.named_delete_of_ne (hauto hc)

theorem fits_new {id : Id} {body : Json} (h : c.Fits env g) (hid : id ∉ g.used)
    (hauto : c.onAlias env → (routeOf id body).name ≠ env.autoModel) :
    c.Fits env (g.new id body hid) := by
  refine h.of_routes (fun _ h => List.mem_cons_of_mem id h) (fun r hr hused => ?_) fun hc => ?_
  · rcases List.mem_append.1 hr with hr | hr
    · exact hr
    · rw [List.mem_singleton.1 hr] at hused
      exact absurd hused hid
  · rw [Registry.named_new, if_neg (hauto hc), List.append_nil]

theorem Ordered.single_of_alone (h : Ordered env s d) (hi : s.calls[i]? = some c)
    (hc : ¬ c.onAlias env)
    (hothers : ∀ (j : Nat) (x : Call), s.calls[j]? = some x → j ≠ i → ¬ x.onAlias env) :
    (s.shared.registry.named env.autoModel).length ≤ 1 := by
  refine h.single fun x hx => ?_
  obtain ⟨j, hj⟩ := List.getElem?_of_mem hx
  by_cases hji : j = i
  · subst hji
    obtain rfl : c = x := Option.some.inj (hi.symm.trans hj)
    exact hc
  · exact hothers j x hj hji

theorem Ordered.rank_of_turn (h : Ordered env s d) (hi : s.calls[i]? = some c) (hc : c.inFlight)
    (hturn : ∀ c' ∈ s.calls, c'.inFlight → c.rank ≤ c'.rank) : c.rank = d := by
  have hlt := h.rank_lt hi hc
  obtain ⟨j, x, hj, hx, hxd⟩ := h.filled d (Nat.le_refl d) (by omega)
  have := hturn x (List.mem_of_getElem? hj) hx
  omega

theorem InTurn.rank_le {t : Target} (h : InTurn env s (.move i .list))
    (hi : s.calls[i]? = some c) (hpc : c.pc = .list t) :
    t.name env c.launch = env.autoModel → ∀ c' ∈ s.calls, c'.inFlight → c.rank ≤ c'.rank := by
  obtain ⟨p, rank, pc⟩ := c
  obtain rfl : pc = .list t := hpc
  simp only [InTurn, hi] at h
  exact h

theorem Ordered.list {t : Target} (h : Ordered env s d) (hi : s.calls[i]? = some c)
    (hpc : c.pc = .list t)
    (hturn : t.name env c.launch = env.autoModel → ∀ c' ∈ s.calls, c'.inFlight → c.rank ≤ c'.rank)
    {pc : Pc} (hnext : pc = match (entry env (t.name env c.launch)
      (listed s.shared.registry .done)).1 with
        | some id => .delete t id
        | none => .create t) :
    Ordered env ⟨s.shared, s.calls.set i { c with pc := pc }⟩ d := by
  have hc : c.inFlight := by simp [Call.inFlight, hpc]
  have hoff : ¬ c.onAlias env := by simp [Call.onAlias, hpc]
  rw [entry_listed] at hnext
  -- on the alias the call is alone, and finds the only route
  have hsingle : t.name env c.launch = env.autoModel → c.rank = d ∧
      (s.shared.registry.named env.autoModel).length ≤ 1 := by
    intro ht
    have hrank : c.rank = d := h.rank_of_turn hi hc (hturn ht)
    exact ⟨hrank, h.single_of_alone hi hoff fun j x hj hji => h.alone hi hc hrank hj hji⟩
  cases hr : (s.shared.registry.named (t.name env c.launch)).head? with
  | none =>
    rw [hr] at hnext
    subst hnext
    refine h.advance hi hc (by simp [Call.inFlight]) rfl rfl (fun j x hj _ => h.fits j x hj)
      (fun ht => ?_) (fun ht => (hsingle ht).1) fun hothers _ => h.single_of_alone hi hoff hothers
    rw [← ht]
    exact List.head?_eq_none_iff.1 hr
  | some r =>
    rw [hr] at hnext
    subst hnext
    obtain ⟨hmem, hname⟩ := Registry.mem_of_named (List.mem_of_head? hr)
    refine h.advance hi hc (by simp [Call.inFlight]) rfl rfl (fun j x hj _ => h.fits j x hj)
      ⟨s.shared.registry.known r hmem, fun q hq hqid => ?_, fun ht => ⟨r, ?_, rfl⟩⟩
      (fun ht => (hsingle ht).1) fun hothers _ => h.single_of_alone hi hoff hothers
    · rw [List.inj_on_of_nodup_map s.shared.registry.table.nodup hq hmem hqid]
      exact hname
    · rw [ht] at hr
      rcases Registry.named_eq (hsingle ht).2 with hnone | ⟨q, hq⟩
      · rw [hnone] at hr
        cases hr
      · rw [hq] at hr ⊢
        rw [Option.some.inj hr]

theorem Ordered.delete {t : Target} {id : Id} (h : Ordered env s d) (hi : s.calls[i]? = some c)
    (hpc : c.pc = .delete t id) :
    Ordered env ⟨{ s.shared with registry := s.shared.registry.delete id },
      s.calls.set i { c with pc := .create t }⟩ d := by
  have hc : c.inFlight := by simp [Call.inFlight, hpc]
  have hon : c.onAlias env ↔ t.name env c.launch = env.autoModel := by simp [Call.onAlias, hpc]
  obtain ⟨-, hname, halias⟩ : (_ ∧ _ ∧ _) := by
    have := h.fits i c hi
    rwa [Call.Fits, hpc] at this
  refine h.advance hi hc (by simp [Call.inFlight]) rfl rfl (fun j x hj hji => ?_) (fun ht => ?_)
    (fun ht => h.turn i c hi (hon.2 ht)) fun hothers ht => ?_
  · refine fits_delete (h.fits j x hj) fun hx r hr hrid hauto => ?_
    have hrank : c.rank = d := h.turn i c hi (hon.2 ((hname r hr hrid).symm.trans hauto))
    exact h.alone hi hc hrank hj hji hx
  · obtain ⟨r, hr, rfl⟩ := halias ht
    exact Registry.named_delete hr
  · rw [Registry.named_delete_of_ne fun r hr hrid hauto => ht ((hname r hr hrid).symm.trans hauto)]
    exact h.single_of_alone hi (fun hx => ht (hon.1 hx)) hothers

theorem Ordered.create {t : Target} {id : Id} (h : Ordered env s d) (hkey : env.key ≠ [])
    (hi : s.calls[i]? = some c) (hpc : c.pc = .create t) (hid : id ∉ s.shared.registry.used) :
    ∃ d', Ordered env
      ⟨{ s.shared with registry := s.shared.registry.new id (t.body env c.launch) hid },
        s.calls.set i { c with pc := t.next env c.launch }⟩ d' := by
  have hc : c.inFlight := by simp [Call.inFlight, hpc]
  have hon : c.onAlias env ↔ t.name env c.launch = env.autoModel := by simp [Call.onAlias, hpc]
  have hnone : t.name env c.launch = env.autoModel →
      s.shared.registry.named env.autoModel = [] := by
    have := h.fits i c hi
    rwa [Call.Fits, hpc] at this
  have hname : (routeOf id (t.body env c.launch)).name = t.name env c.launch := rfl
  have hothers : ∀ (j : Nat) (x : Call), s.calls[j]? = some x → j ≠ i →
      x.Fits env (s.shared.registry.new id (t.body env c.launch) hid) := by
    intro j x hj hji
    refine fits_new (h.fits j x hj) hid fun hx hauto => ?_
    exact h.alone hi hc (h.turn i c hi (hon.2 hauto)) hj hji hx
  have hnamed : (s.shared.registry.new id (t.body env c.launch) hid).named env.autoModel =
      s.shared.registry.named env.autoModel ++
        if (routeOf id (t.body env c.launch)).name = env.autoModel then
          [routeOf id (t.body env c.launch)]
        else [] := Registry.named_new
  cases t with
  | register =>
    have hnext : Target.register.next env c.launch = .list .point := by
      unfold Target.next pointAutoModel start
      rw [if_neg (h.chat c (List.mem_of_getElem? hi)), if_neg hkey]
    rw [hnext]
    refine ⟨d, h.advance hi hc (by simp [Call.inFlight]) rfl rfl hothers trivial
      (fun hx => nomatch hx) fun hoff _ => ?_⟩
    rw [hnamed, hname]
    split
    · next ht =>
        rw [hnone ht]
        simp
    · next ht =>
        rw [List.append_nil]
        exact h.single_of_alone hi (fun hx => ht (hon.1 hx)) hoff
  | point =>
    refine ⟨d + 1, h.finish hi hc (h.turn i c hi (hon.2 rfl)) hothers
      ⟨routeOf id (Target.point.body env c.launch), ?_, rfl⟩⟩
    rw [hnamed, hname, hnone rfl, List.nil_append]
    exact if_pos rfl

theorem Ordered.move {l : Move} {sh : Platform} (h : Ordered env s d) (hkey : env.key ≠ [])
    (hi : s.calls[i]? = some c) (hturn : InTurn env s (.move i l))
    (hm : callMove env s.shared c l = some (sh, c')) :
    ∃ d', Ordered env ⟨sh, s.calls.set i c'⟩ d' := by
  unfold callMove at hm
  cases l with
  | accept =>
    obtain ⟨hpc, hm⟩ := Option.ite_none_right_eq_some.1 hm
    cases hm
    rw [start, if_neg hkey]
    exact ⟨d, h.accept hi hpc⟩
  | refuse =>
    obtain ⟨hpc, hm⟩ := Option.ite_none_right_eq_some.1 hm
    cases hm
    exact ⟨d, h.refuse hi hpc⟩
  | list =>
    cases hpc : c.pc with
    | list t =>
      refine ⟨d, ?_⟩
      have hlisted := h.list hi hpc (hturn.rank_le hi hpc) rfl
      simp only [hpc] at hm
      cases hfound : (entry env (t.name env c.launch) (listed s.shared.registry .done)).1 with
      | none =>
        rw [hfound] at hm hlisted
        cases hm
        exact hlisted
      | some id =>
        rw [hfound] at hm hlisted
        cases hm
        exact hlisted
    | _ => simp [hpc] at hm
  | delete =>
    cases hpc : c.pc with
    | delete t id =>
      simp only [hpc] at hm
      cases hm
      exact ⟨d, h.delete hi hpc⟩
    | _ => simp [hpc] at hm
  | create id =>
    cases hpc : c.pc with
    | create t =>
      simp only [hpc] at hm
      obtain ⟨hid, hm⟩ := Option.dite_none_right_eq_some.1 hm
      cases hm
      exact h.create hkey hi hpc hid
    | _ => simp [hpc] at hm

theorem Ordered.enter (h : Ordered env s d) {p : Launch} (hp : ¬ isDecisionModel env p.name) :
    Ordered env { s with calls := s.calls ++ [⟨p, 0, .asking⟩] } d := by
  have hold : ∀ (j : Nat) (x : Call), (s.calls ++ [⟨p, 0, .asking⟩])[j]? = some x →
      s.calls[j]? = some x ∨ x = ⟨p, 0, .asking⟩ := by
    intro j x hj
    by_cases hlt : j < s.calls.length
    · rw [List.getElem?_append_left hlt] at hj
      exact .inl hj
    · rw [List.getElem?_append_right (by omega)] at hj
      exact .inr (List.mem_singleton.1 (List.mem_of_getElem? hj))
  have hnew : ¬ Call.inFlight ⟨p, 0, .asking⟩ := by simp [Call.inFlight]
  have hkept : ∀ (j : Nat) (x : Call), (s.calls ++ [⟨p, 0, .asking⟩])[j]? = some x →
      x.inFlight → s.calls[j]? = some x := by
    intro j x hj hx
    rcases hold j x hj with hj | rfl
    · exact hj
    · exact absurd hx hnew
  exact {
    le := h.le
    chat := forall_append h.chat hp
    ranked := fun j x hj hx => h.ranked j x (hkept j x hj hx) hx
    filled := by
      intro k hdk hk
      obtain ⟨j, x, hj, hx, hxk⟩ := h.filled k hdk hk
      exact ⟨j, x, by rw [List.getElem?_append_left (List.getElem?_eq_some_iff.1 hj).1]; exact hj,
        hx, hxk⟩
    distinct := fun j k x y hj hk hx hy =>
      h.distinct j k x y (hkept j x hj hx) (hkept k y hk hy) hx hy
    fits := by
      intro j x hj
      rcases hold j x hj with hj | rfl
      · exact h.fits j x hj
      · trivial
    turn := fun j x hj hx => h.turn j x (hkept j x hj (inFlight_of_onAlias hx)) hx
    single := fun hnone => h.single fun x hx => hnone x (List.mem_append_left _ hx)
    settled := h.settled }

/-- What a step keeps, when the call that lists the alias is in its turn. -/
theorem ordered_step {a : Act Launch Move Empty} (hkey : env.key ≠ [])
    (h : ∃ d, Ordered env s d) (hchat : Chats env a)
    (hturn : InTurn env s a) (hs : (launching env).step s a = some s') : ∃ d, Ordered env s' d := by
  obtain ⟨d, h⟩ := h
  cases a with
  | enter p =>
    cases hs
    exact ⟨d, h.enter hchat⟩
  | move i l =>
    obtain ⟨c, sh, c', hi, hm, rfl⟩ := Machine.step_move hs
    exact h.move hkey hi hturn hm
  | env e => cases e

/-! ## The alias follows -/

/-- Launches of chat models whose calls list the alias in the order in which the runner
accepted them: once all of them have returned, exactly one route has the alias, and it leads
to the model accepted last. -/
theorem alias_follows (env : Env) (hkey : env.key ≠ []) (g : Registry)
    (hone : (g.named env.autoModel).length ≤ 1) (as : List (Act Launch Move Empty))
    (hchat : ∀ a ∈ as, Chats env a)
    (hturn : Meets (launching env).step (InTurn env) (Conf.init ⟨g, []⟩) as)
    (s : Conf Platform Call) (hrun : exec (launching env).step (Conf.init ⟨g, []⟩) as = some s)
    (hreturned : ∀ c ∈ s.calls, c.pc = .asking ∨ c.pc = .returned) :
    ∀ p, s.shared.accepted.getLast? = some p → Follows env s.shared.registry p := by
  obtain ⟨d, h⟩ := exec_inv
    (fun s a s' hinv hG hs => ordered_step hkey hinv hG.1 hG.2 hs)
    (⟨0, ordered_init hone⟩ : ∃ d, Ordered env (Conf.init ⟨g, []⟩) d)
    (meets_of_forall hchat hturn) hrun
  refine h.settled ?_
  -- no call is in flight, so no rank is left
  by_contra hne
  have hle := h.le
  obtain ⟨j, c, hj, hc, -⟩ := h.filled d (Nat.le_refl d) (by omega)
  rcases hreturned c (List.mem_of_getElem? hj) with hpc | hpc
  · exact hc.1 hpc
  · exact hc.2 hpc

/-! Two launches on an empty registry. -/

def qwen : Launch := ⟨"qwen".toList, [], []⟩

def flash : Launch := ⟨"flash".toList, [], "ds4".toList⟩

/-- The alias of a registry that has it, updated alone. -/
theorem upsert_alone_point : ∃ moves : List Move,
    moves.foldlM (fun r l => callMove localEnv r.1 r.2 l) (⟨autoAlone, [flash]⟩, ⟨flash, 0, .list .point⟩) =
      some (⟨(upsert localEnv Drawn.longer ⟨.done, .done, .done, .done⟩ localEnv.autoModel
          (upstream flash.name flash.served) (ctxSplit flash.args flash.served).1
          (ctxSplit flash.args flash.served).2 autoAlone).2, [flash]⟩,
        ⟨flash, 0, Target.point.next localEnv flash⟩) :=
  upsert_alone localEnv (by decide) Drawn.longer ⟨autoAlone, [flash]⟩ ⟨flash, 0, .list .point⟩ rfl

/-- The upserts of call `i` once the runner has accepted it, on a registry where its own route
is missing; `found` is whether the alias is there. -/
def upserts (i : Nat) (ids : Id × Id) (found : Bool) : List (Act Launch Move Empty) :=
  [.move i .list, .move i (.create ids.1), .move i .list] ++
    (if found then [.move i .delete] else []) ++ [.move i (.create ids.2)]

def noRoutes : Registry where
  table := ⟨[], List.nodup_nil⟩
  used := []
  known := by simp

/-- One launch after the other. -/
def oneByOne : List (Act Launch Move Empty) :=
  [.enter qwen, .enter flash, .move 0 .accept] ++ upserts 0 (['a'], ['b']) false ++
    [.move 1 .accept] ++ upserts 1 (['c'], ['d']) true

theorem ends_with {β : Type} (as : List (Act Launch Move Empty)) (f : Conf Platform Call → β) {b : β}
    (h : (exec (launching localEnv).step (Conf.init ⟨noRoutes, []⟩) as).map f = some b) :
    ∃ s, exec (launching localEnv).step (Conf.init ⟨noRoutes, []⟩) as = some s ∧ f s = b :=
  Option.map_eq_some_iff.1 h

theorem alias_follows_oneByOne :
    ∃ s, exec (launching localEnv).step (Conf.init ⟨noRoutes, []⟩) oneByOne = some s ∧
      Follows localEnv s.shared.registry flash := by
  obtain ⟨s, hs, hend⟩ := ends_with oneByOne
    (fun s => (s.calls.map Call.pc, s.shared.accepted.getLast?))
    (b := ([.returned, .returned], some flash)) (by decide)
  obtain ⟨hpcs, hlast⟩ : s.calls.map Call.pc = [.returned, .returned] ∧ _ := Prod.ext_iff.1 hend
  refine ⟨s, hs, alias_follows localEnv (by decide) noRoutes (by decide) oneByOne (by decide)
    (by decide) s hs (fun c hc => .inr ?_) flash hlast⟩
  have hmem : c.pc ∈ [Pc.returned, Pc.returned] := hpcs ▸ List.mem_map_of_mem hc
  simpa using hmem

/-- Both are accepted before either updates the alias, and the first one updates it last. -/
def overtaken : List (Act Launch Move Empty) :=
  [.enter qwen, .enter flash, .move 0 .accept, .move 1 .accept] ++
    upserts 1 (['a'], ['b']) false ++ upserts 0 (['c'], ['d']) true

theorem alias_left_behind :
    ∃ s, exec (launching localEnv).step (Conf.init ⟨noRoutes, []⟩) overtaken = some s ∧
      s.calls.map Call.pc = [.returned, .returned] ∧ s.shared.accepted.getLast? = some flash ∧
      ¬ Follows localEnv s.shared.registry flash := by
  obtain ⟨s, hs, hend⟩ := ends_with overtaken
    (fun s => (s.calls.map Call.pc, s.shared.accepted.getLast?,
      (s.shared.registry.named localEnv.autoModel).map routeUpstream))
    (b := ([.returned, .returned], some flash, [some "openai/qwen".toList])) (by decide)
  obtain ⟨hpcs, hend⟩ := Prod.ext_iff.1 hend
  obtain ⟨hlast, hroutes⟩ := Prod.ext_iff.1 hend
  refine ⟨s, hs, hpcs, hlast, ?_⟩
  rintro ⟨r, hr, hup⟩
  simp only [hr, List.map_singleton, hup] at hroutes
  revert hroutes
  decide

end Portal.Launches
