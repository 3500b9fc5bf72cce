import DgxPlatform.Lib.Ordered
import Mathlib.Data.List.Sort
import Mathlib.Data.String.Basic

/-! # The leaderboard

`ranking_full` adds up the spend logs of a period by account or by group and ranks
them; `ranking_for_viewer` hides the accounts that chose anonymity from the others.

The spend logs are what the three queries of a period answer (`Spend`): Postgres
groups them by bucket, key and model. The accounts, their groups and their
preferences are tables. The arithmetic of `f64` is a parameter (`Arith`): nothing here
depends on how it rounds.
-/

namespace Portal.Ranking

open Ordered (Map)

inductive Period where
  | day
  | week
  | month
  | year
  | all
deriving DecidableEq

/-- `RANKING_METRICS`. -/
inductive Metric where
  | total
  | completion
  | prompt
  | requests
  | perRequest
deriving DecidableEq

inductive By where
  | account
  | group
deriving DecidableEq

/-- `NO_GROUP`. -/
def noGroup : String := "Sans groupe"

def periodLabel : Period → String
  | .week => "7 derniers jours"
  | .month => "30 derniers jours"
  | .year => "12 derniers mois"
  | .all => "Depuis le début"
  | .day => "Aujourd'hui"

def prevLabel : Period → String
  | .week => "la semaine précédente"
  | .month => "les 30 jours précédents"
  | .year => "les 12 mois précédents"
  | .all => ""
  | .day => "hier"

/-! ## The figures -/

/-- The operations of `f64` that the figures use. -/
structure Arith (F : Type) where
  ofInt : Int → F
  toInt : F → Int
  add : F → F → F
  sub : F → F → F
  mul : F → F → F
  div : F → F → F
  gt : F → F → Bool
  roundTo : F → Nat → F

namespace Arith

variable {F : Type} (ar : Arith F)

def zero : F := ar.ofInt 0

/-- `== 0.0`: neither above nor below. -/
def isZero (x : F) : Bool := !ar.gt x ar.zero && !ar.gt ar.zero x

/-- `metric_value`. -/
def metricValue (prompt completion : Int) (m : Metric) (requests : Int) : F :=
  let p := ar.ofInt (max prompt 0)
  let c := ar.ofInt (max completion 0)
  let n := ar.ofInt (max requests 0)
  match m with
  | .completion => c
  | .prompt => p
  | .requests => n
  | .perRequest => if ar.gt n ar.zero then ar.div (ar.add p c) n else ar.zero
  | .total => ar.add p c

def percent (x y : F) : F := ar.mul (ar.div x y) (ar.ofInt 100)

/-- `share_pct`. -/
def sharePct (value total : F) (m : Metric) : Option F :=
  if ar.isZero total || m == .perRequest then none else some (ar.percent value total)

/-- `delta_pct`. -/
def deltaPct (value previous : F) : Option F :=
  if ar.isZero previous then none else some (ar.percent (ar.sub value previous) previous)

/-- `cost`. -/
def cost (prompt completion : Int) (priceInput priceOutput : F) : F :=
  let million := ar.ofInt 1000000
  ar.roundTo
    (ar.add (ar.mul (ar.div (ar.ofInt (max prompt 0)) million) priceInput)
      (ar.mul (ar.div (ar.ofInt (max completion 0)) million) priceOutput)) 2

def sum (xs : List F) : F := xs.foldl ar.add ar.zero

end Arith

/-- A figure of the answer: `json!` of an `f64` or of an `i64`. -/
inductive Figure (F : Type) where
  | int (n : Int)
  | float (x : F)
deriving DecidableEq

/-! ## The tables -/

/-- A row of the current period: bucket, key, model, tokens, successful requests. -/
structure CurrentRow where
  bucket : Option String
  apiKey : Option String
  model : Option String
  prompt : Option Int
  completion : Option Int
  requests : Int

/-- A row of the previous period. -/
structure PreviousRow where
  apiKey : Option String
  prompt : Option Int
  completion : Option Int
  requests : Int

/-- A model seen over the period: name, successful requests, tokens. -/
structure SeenRow where
  model : Option String
  requests : Int
  tokens : Option Int

/-- What Postgres answers: the buckets of a period's window, the logs of the period and
of the one before, the models, and whose a key is (`key_user_map`). -/
structure Spend where
  buckets : Period → List String
  current : Period → Option String → List CurrentRow
  previous : Period → Option String → List PreviousRow
  seen : Period → List SeenRow
  umap : Map String String

/-- A row of `user_prefs`. -/
structure Pref where
  username : String
  rankingAnonymous : Bool
  avatarId : Option String

/-- The portal's tables; `none` is one that cannot be read. -/
structure Tables where
  localUsers : Option (List (String × Option String))
  userSources : Option (List String)
  directoryGroups : Option (List (String × String))
  prefs : List Pref

structure Prices (F : Type) where
  input : F
  output : F
  currency : String
deriving DecidableEq

/-- Everything the leaderboard is computed from; `spend` is `none` without a database or
when a query of it fails. -/
structure Inputs (F : Type) where
  spend : Option Spend
  tables : Tables
  prices : Prices F
  quotas : Map String (Option F)

/-- A request: the period, the metric, the model filter, by account or by group. -/
structure Query where
  period : Period
  metric : Metric
  model : Option String
  by_ : By

namespace Tables

variable (t : Tables)

/-- `known_accounts`. -/
def knownAccounts : Option (List String) :=
  match t.localUsers, t.userSources with
  | some local_, some sources => some (local_.map Prod.fst ++ sources)
  | _, _ => none

/-- `BTreeSet::insert`. -/
def insertSorted (g : String) (gs : List String) : List String :=
  if g ∈ gs then gs else gs.orderedInsert (fun a b => a ≤ b) g

def addGroup (out : Map String (List String)) (row : String × String) : Map String (List String) :=
  Ordered.modify row.1 [] (insertSorted row.2) out

/-- `user_groups`: account → its groups, in first-seen order. -/
def userGroups : Map String (List String) :=
  match t.localUsers, t.directoryGroups with
  | some local_, some directory =>
      let named := local_.filterMap fun row =>
        (row.2.filter fun g => g != "").map fun g => (row.1, g)
      (named ++ directory).foldl addGroup []
  | _, _ => []

/-- `anonymous_accounts`. -/
def anonymousAccounts : List String := (t.prefs.filter Pref.rankingAnonymous).map Pref.username

/-- `avatars`. -/
def avatar (u : String) : Option String :=
  ((t.prefs.find? fun p => p.username = u).map Pref.avatarId).join

/-- `is_residue`: "unknown", or an account that does not exist. -/
def isResidue (u : String) : Bool :=
  u == "unknown" || t.knownAccounts.any fun known => !known.contains u

/-- The groups an account is counted in. -/
def groupsOf (u : String) : List String :=
  ((Ordered.get? u t.userGroups).filter fun gs => !gs.isEmpty).getD [noGroup]

end Tables

/-! ## The aggregates -/

/-- Prompt tokens, completion tokens, requests. -/
structure Triple where
  prompt : Int := 0
  completion : Int := 0
  requests : Int := 0
deriving DecidableEq

def Triple.add (a b : Triple) : Triple :=
  ⟨a.prompt + b.prompt, a.completion + b.completion, a.requests + b.requests⟩

def Arith.tripleValue {F : Type} (ar : Arith F) (m : Metric) (t : Triple) : F :=
  ar.metricValue t.prompt t.completion m t.requests

/-- `Agg`: the sums of an account or a group, by bucket and by model. -/
structure Agg where
  sums : Triple := {}
  spark : Map String Triple := []
  models : Map String Int := []
deriving DecidableEq

def Agg.addModel (a : Agg) (model : String) (tokens : Int) : Agg :=
  { a with models := Ordered.modify model 0 (· + tokens) a.models }

def CurrentRow.triple (r : CurrentRow) : Triple :=
  ⟨r.prompt.getD 0, r.completion.getD 0, r.requests⟩

def PreviousRow.triple (r : PreviousRow) : Triple :=
  ⟨r.prompt.getD 0, r.completion.getD 0, r.requests⟩

def Agg.addRow (r : CurrentRow) (a : Agg) : Agg :=
  let t := r.triple
  let a' : Agg :=
    { a with
      sums := a.sums.add t
      spark := Ordered.modify (r.bucket.getD "") {} (·.add t) a.spark }
  match r.model.filter fun m => m != "" with
  | some m => if t.prompt ≠ 0 ∨ t.completion ≠ 0 then a'.addModel m (t.prompt + t.completion) else a'
  | none => a'

/-- An account's aggregate added to its group's. -/
def Agg.merge (a t : Agg) : Agg :=
  let t' : Agg :=
    { t with
      sums := t.sums.add a.sums
      spark := a.spark.foldl (fun s p => Ordered.modify p.1 {} (·.add p.2) s) t.spark }
  a.models.foldl (fun t p => t.addModel p.1 p.2) t'

/-- `NON_USER_KEYS`. -/
def nonUserKeys : List String := ["litellm_proxy_master_key", "None", ""]

/-- `owner_of`: whose a key is, nobody's for the keys of the proxy. -/
def ownerOf (umap : Map String String) : Option String → Option String
  | some k =>
      if nonUserKeys.contains k then none else some ((Ordered.get? k umap).getD "unknown")
  | none => some "unknown"

def addCurrent (umap : Map String String) (agg : Map String Agg) (r : CurrentRow) :
    Map String Agg :=
  match ownerOf umap r.apiKey with
  | some u => Ordered.modify u {} (Agg.addRow r) agg
  | none => agg

def addPrevious (umap : Map String String) (prev : Map String Triple) (r : PreviousRow) :
    Map String Triple :=
  match ownerOf umap r.apiKey with
  | some u => Ordered.modify u {} (·.add r.triple) prev
  | none => prev

/-- The current period, by account. -/
def byAccount (s : Spend) (q : Query) : Map String Agg :=
  (s.current q.period q.model).foldl (addCurrent s.umap) []

/-- The period before, by account; "since the beginning" has none. -/
def prevByAccount (s : Spend) (q : Query) : Map String Triple :=
  if q.period = .all then [] else (s.previous q.period q.model).foldl (addPrevious s.umap) []

/-- The accounts that are counted in a group. -/
def counted {V : Type} (t : Tables) (m : Map String V) : Map String V :=
  m.filter fun p => !t.isResidue p.1

def byGroup (t : Tables) (m : Map String Agg) : Map String Agg :=
  (counted t m).foldl
    (fun out p => (t.groupsOf p.1).foldl (fun out g => Ordered.modify g {} p.2.merge out) out) []

def prevByGroup (t : Tables) (m : Map String Triple) : Map String Triple :=
  (counted t m).foldl
    (fun out p => (t.groupsOf p.1).foldl (fun out g => Ordered.modify g {} (·.add p.2) out) out) []

/-- The counted members of a group. -/
def membersOf (t : Tables) (m : Map String Agg) (g : String) : List String :=
  ((counted t m).filter fun p => (t.groupsOf p.1).contains g).map Prod.fst

/-! ## The rows -/

/-- A row of the answer. The last four fields are set for the viewer. -/
structure Row (F : Type) where
  rank : Option Nat
  username : Option String
  isMe : Bool
  isGroup : Bool
  members : Option Nat
  isUnattributed : Bool
  value : Figure F
  tokens : Int
  prompt : Int
  completion : Int
  requests : Int
  sharePct : Option F
  delta : Option F
  trend : List (Figure F)
  models : List (String × F)
  cost : F
  isAnonymous : Option Bool := none
  avatarId : Option String := none
  anonId : Option String := none
  quotaPct : Option (Option F) := none
deriving DecidableEq

/-- What is ranked: the aggregates of the period and of the one before, who is a member,
and which rows are residues. -/
structure Board where
  agg : Map String Agg
  prev : Map String Triple
  members : String → List String
  residue : String → Bool

def accountBoard (s : Spend) (t : Tables) (q : Query) : Board :=
  { agg := byAccount s q, prev := prevByAccount s q, members := fun _ => []
    residue := t.isResidue }

def groupBoard (s : Spend) (t : Tables) (q : Query) : Board :=
  { agg := byGroup t (byAccount s q), prev := prevByGroup t (prevByAccount s q)
    members := membersOf t (byAccount s q), residue := fun _ => false }

def board (s : Spend) (t : Tables) (q : Query) : Board :=
  match q.by_ with
  | .account => accountBoard s t q
  | .group => groupBoard s t q

section Rows

variable {F : Type} (ar : Arith F)

/-- A figure as the answer prints it. -/
def figure (m : Metric) (x : F) (rounded : F) : Figure F :=
  if m = .perRequest then .float rounded else .int (ar.toInt x)

/-- The sums over a list of aggregates. -/
def totals (m : Map String Agg) : Triple := m.foldl (fun t p => t.add p.2.sums) {}

/-- The rows with a positive figure, residues or not, best first; equal ones in the
order in which they were seen. -/
def ranked (q : Query) (b : Board) (residue : Bool) : Map String Agg :=
  (b.agg.filter fun p =>
    ar.gt (ar.tripleValue q.metric p.2.sums) ar.zero && b.residue p.1 == residue).mergeSort
      fun p p' => !ar.gt (ar.tripleValue q.metric p'.2.sums) (ar.tripleValue q.metric p.2.sums)

/-- The total and the average of the period. -/
def totalAndAvg (q : Query) (b : Board) : F × F :=
  if q.metric = .perRequest then
    let t := ar.tripleValue q.metric (totals b.agg)
    (t, t)
  else
    let values := fun residue =>
      (ranked ar q b residue).map fun p => ar.tripleValue q.metric p.2.sums
    (ar.sum (values false ++ values true),
      if (values false).isEmpty then ar.zero
      else ar.div (ar.sum (values false)) (ar.ofInt (values false).length))

/-- `line`. -/
def line (sp : Spend) (prices : Prices F) (q : Query) (b : Board) (me : String) (total : F)
    (rank : Option Nat) (u : String) (a : Agg) : Row F :=
  let value := ar.tripleValue q.metric a.sums
  let previous := ((Ordered.get? u b.prev).map (ar.tripleValue q.metric)).getD ar.zero
  let tokens := a.sums.prompt + a.sums.completion
  let top := (a.models.mergeSort fun x y => decide (y.2 ≤ x.2)).take 3
  { rank := rank
    username := some u
    isMe := match q.by_ with
      | .group => (b.members u).contains me
      | .account => u == me
    isGroup := q.by_ == .group
    members := match q.by_ with
      | .group => some (b.members u).length
      | .account => none
    isUnattributed := b.residue u
    value := figure ar q.metric value (ar.roundTo value 1)
    tokens := tokens
    prompt := a.sums.prompt
    completion := a.sums.completion
    requests := a.sums.requests
    sharePct := ar.sharePct value total q.metric
    delta := if b.residue u then none else ar.deltaPct value previous
    trend := (sp.buckets q.period).map fun bucket =>
      let v := ar.tripleValue q.metric ((Ordered.get? bucket a.spark).getD {})
      figure ar q.metric v v
    models := top.map fun p =>
      (p.1, if tokens ≠ 0 then ar.percent (ar.ofInt p.2) (ar.ofInt tokens) else ar.zero)
    cost := ar.cost a.sums.prompt a.sums.completion prices.input prices.output }

/-- The rows of a board: the ranked ones, then the residues without a rank. -/
def boardRows (sp : Spend) (prices : Prices F) (q : Query) (b : Board) (me : String) :
    List (Row F) :=
  let total := (totalAndAvg ar q b).1
  (ranked ar q b false).mapIdx (fun i p => line ar sp prices q b me total (some (i + 1)) p.1 p.2) ++
    (ranked ar q b true).map fun p => line ar sp prices q b me total none p.1 p.2

/-- The models seen over the period, most tokens first. -/
def seenModels (sp : Spend) (q : Query) : List (String × Int × Int) :=
  (((sp.seen q.period).filter fun r => decide (r.requests > 0)).map fun r =>
    (r.model.getD "", r.requests, r.tokens.getD 0)).mergeSort fun x y => decide (y.2.2 ≤ x.2.2)

/-- The answer. The labels and the two flags at the end are set for the viewer. -/
structure Answer (F : Type) where
  period : Period
  metric : Metric
  rows : List (Row F)
  by_ : By
  model : Option String
  activeCount : Nat
  total : Figure F
  avg : Figure F
  hasPrev : Bool
  models : List (String × Int × Int)
  prices : Prices F
  costTotal : Figure F
  isAdmin : Bool := false
  meAnonymous : Bool := false
  periodLabel : String := ""
  prevLabel : String := ""
deriving DecidableEq

/-- `ranking_full`: the empty answer without spend logs. -/
def rankingFull (inp : Inputs F) (q : Query) (me : String) : Answer F :=
  match inp.spend with
  | none =>
      { period := q.period, metric := q.metric, rows := [], by_ := q.by_, model := q.model
        activeCount := 0, total := .int 0, avg := .int 0, hasPrev := q.period != .all, models := []
        prices := inp.prices, costTotal := .int 0 }
  | some sp =>
      let b := board sp inp.tables q
      let (total, avg) := totalAndAvg ar q b
      let sums := totals b.agg
      { period := q.period, metric := q.metric
        rows := boardRows ar sp inp.prices q b me
        by_ := q.by_, model := q.model, activeCount := (ranked ar q b false).length
        total := .float (ar.roundTo total 1), avg := .float (ar.roundTo avg 1)
        hasPrev := q.period != .all, models := seenModels sp q, prices := inp.prices
        costTotal :=
          .float (ar.cost sums.prompt sums.completion inp.prices.input inp.prices.output) }

/-! ## For one viewer -/

/-- The first account of the group table that has the group. -/
def firstHolder (t : Tables) (g : String) : Option String :=
  (t.userGroups.find? fun p => p.2.contains g).map Prod.fst

/-- A row of the group view: a group of one is its member. -/
def veilGroup (t : Tables) (admin : Bool) (row : Row F) : Row F :=
  if row.members == some 1 && !admin && !row.isMe &&
      (firstHolder t (row.username.getD "")).any t.anonymousAccounts.contains then
    { row with avatarId := none, username := none, isAnonymous := some true }
  else { row with avatarId := none }

/-- A row of the account view. -/
def veilAccount (t : Tables) (quotas : Map String (Option F)) (me : String) (admin : Bool) (n : Nat)
    (row : Row F) : Row F :=
  let name := row.username.getD ""
  let anonymous := t.anonymousAccounts.contains name
  let hidden := anonymous && name != me && !admin
  { row with
    isAnonymous := some anonymous
    avatarId := if hidden then none else t.avatar name
    username := if hidden then none else row.username
    anonId := if hidden then some ("anon-" ++ toString n) else row.anonId
    quotaPct := if admin then some (Ordered.get? name quotas).join else row.quotaPct }

/-- `ranking_for_viewer`. -/
def rankingForViewer (inp : Inputs F) (q : Query) (me : String) (admin : Bool) : Answer F :=
  let data := rankingFull ar inp q me
  { data with
    rows := match q.by_ with
      | .group => data.rows.map (veilGroup inp.tables admin)
      | .account => data.rows.mapIdx (veilAccount inp.tables inp.quotas me admin)
    isAdmin := admin
    meAnonymous := inp.tables.anonymousAccounts.contains me
    periodLabel := periodLabel q.period
    prevLabel := prevLabel q.period }

end Rows

end Portal.Ranking
