import DgxPlatform.Lib.Table
import Mathlib.Data.List.Infix

/-! # Closing a session

An account closes one of its sessions by the first characters of the session's id
(`revoke_one`). The rows are found with `LIKE`, whose pattern is the identifier and a `%`:
`_` and `%` in the identifier are wildcards and letters compare without their case. The
pattern matches every id that begins with the identifier, and more. It never reaches a
session of another account (`isolated`).

The columns of a session that the query does not read are left out.
-/

namespace Portal.Sessions

/-- `LIKE` of SQLite: `%` is any text, `_` any character, ASCII letters match in both
cases. -/
def like : List Char → List Char → Bool
  | [], t => t.isEmpty
  | d :: pattern, t =>
      if d = '%' then t.tails.any (like pattern)
      else
        match t with
        | [] => false
        | c :: t => (d = '_' || d.toLower = c.toLower) && like pattern t

/-- A row of `user_sessions`. -/
structure Session where
  sid : List Char
  username : List Char
  revoked : Bool
deriving DecidableEq

/-- The sessions, one row an id. -/
abbrev Rows := Table Session Session.sid

def Session.close (r : Session) : Session := { r with revoked := true }

theorem Session.close_sid (r : Session) : r.close.sid = r.sid := rfl

/-- `RevokeOne`. -/
inductive Outcome where
  | revoked (sid : List Char)
  | tooShort
  | notFound
  | ambiguous
deriving DecidableEq

/-- The ids that the query finds. -/
def found (rows : Rows) (username ident : List Char) : List (List Char) :=
  (rows.rows.filter fun r =>
    r.username = username && !r.revoked && like (ident ++ ['%']) r.sid).map Session.sid

/-- `revoke_one`: the outcome and the rows after it. -/
def revokeOne (rows : Rows) (username ident : List Char) : Outcome × Rows :=
  if ident.length < 8 then (.tooShort, rows)
  else
    match found rows username ident with
    | [] => (.notFound, rows)
    | [target] => (.revoked target, rows.update target Session.close Session.close_sid)
    | _ => (.ambiguous, rows)

/-- An open session of the account. -/
structure Live (rows : Rows) (username : List Char) (r : Session) : Prop where
  mem : r ∈ rows.rows
  owner : r.username = username
  active : r.revoked = false

/-- A session of the account that the identifier stands for. -/
structure Named (rows : Rows) (username ident : List Char) (r : Session) : Prop extends
    Live rows username r where
  start : ident <+: r.sid

/-- A session of the account that the query finds. -/
structure Matched (rows : Rows) (username ident : List Char) (r : Session) : Prop extends
    Live rows username r where
  pattern : like (ident ++ ['%']) r.sid = true

/-! ## The pattern matches more than a prefix -/

section Pattern

variable {ident sid : List Char}

theorem like_of_prefix (h : ident <+: sid) : like (ident ++ ['%']) sid = true := by
  induction ident generalizing sid with
  | nil =>
    have hempty : ([] : List Char) ∈ sid.tails := (List.mem_tails [] sid).2 List.nil_suffix
    exact List.any_eq_true.2 ⟨[], hempty, rfl⟩
  | cons d ident ih =>
    obtain ⟨rest, rfl⟩ := h
    rw [List.cons_append, List.cons_append]
    unfold like
    split_ifs with hd
    · refine List.any_eq_true.2 ⟨ident ++ rest, ?_, ih (List.prefix_append ident rest)⟩
      exact (List.mem_tails _ _).2 (List.suffix_cons d _)
    · simp [ih (List.prefix_append ident rest)]

end Pattern

section Outcomes

variable {rows : Rows} {username ident : List Char} {r : Session}

theorem Named.matched (h : Named rows username ident r) : Matched rows username ident r :=
  ⟨h.toLive, like_of_prefix h.start⟩

theorem mem_found_iff {s : List Char} :
    s ∈ found rows username ident ↔ ∃ r, Matched rows username ident r ∧ r.sid = s := by
  rw [found, List.mem_map]
  constructor
  · rintro ⟨r, hr, rfl⟩
    obtain ⟨hmem, hcond⟩ := List.mem_filter.1 hr
    simp only [Bool.and_eq_true, decide_eq_true_eq, Bool.not_eq_true'] at hcond
    exact ⟨r, ⟨⟨hmem, hcond.1.1, hcond.1.2⟩, hcond.2⟩, rfl⟩
  · rintro ⟨r, ⟨⟨hmem, howner, hactive⟩, hpattern⟩, rfl⟩
    refine ⟨r, List.mem_filter.2 ⟨hmem, ?_⟩, rfl⟩
    simp [howner, hactive, hpattern]

theorem found_ne_nil_iff : found rows username ident ≠ [] ↔ ∃ r, Matched rows username ident r := by
  constructor
  · intro h
    obtain ⟨s, hs⟩ := List.exists_mem_of_ne_nil _ h
    obtain ⟨r, hr, -⟩ := mem_found_iff.1 hs
    exact ⟨r, hr⟩
  · rintro ⟨r, hr⟩
    exact List.ne_nil_of_mem (mem_found_iff.2 ⟨r, hr, rfl⟩)

theorem revokeOne_eq (hlen : 8 ≤ ident.length) :
    revokeOne rows username ident =
      match found rows username ident with
      | [] => (.notFound, rows)
      | [target] => (.revoked target, rows.update target Session.close Session.close_sid)
      | _ => (.ambiguous, rows) := if_neg (Nat.not_lt.2 hlen)

theorem notFound_iff (hlen : 8 ≤ ident.length) :
    (revokeOne rows username ident).1 = .notFound ↔ ¬ ∃ r, Matched rows username ident r := by
  rw [← found_ne_nil_iff, not_not, revokeOne_eq hlen]
  rcases found rows username ident with _ | ⟨s, _ | ⟨s', t⟩⟩ <;> simp

theorem found_of_revoked (hlen : 8 ≤ ident.length) {s : List Char}
    (h : (revokeOne rows username ident).1 = .revoked s) :
    found rows username ident = [s] ∧
      (revokeOne rows username ident).2 = rows.update s Session.close Session.close_sid := by
  rw [revokeOne_eq hlen] at h ⊢
  generalize found rows username ident = ids at h ⊢
  rcases ids with _ | ⟨target, _ | ⟨s', t⟩⟩
  · cases h
  · obtain rfl : target = s := Outcome.revoked.inj h
    exact ⟨rfl, rfl⟩
  · cases h

/-- The identifier is taken for the session whose id begins with it, and for no other. -/
structure Precise (rows : Rows) (username ident : List Char) : Prop where
  /-- Only the one session that the identifier stands for is closed. -/
  revoked : ∀ s, (revokeOne rows username ident).1 = .revoked s →
    (∃ r, Named rows username ident r ∧ r.sid = s) ∧
      (∀ r, Named rows username ident r → r.sid = s) ∧
      ∀ k, (revokeOne rows username ident).2.find? k =
        if k = s then (rows.find? k).map Session.close else rows.find? k
  notFound : (revokeOne rows username ident).1 = .notFound ↔ ¬ ∃ r, Named rows username ident r

/-- The identifier is taken precisely if, where the pattern matches a session, some session
begins with it. -/
theorem precise_iff (rows : Rows) (username ident : List Char) (hlen : 8 ≤ ident.length) :
    Precise rows username ident ↔
      ((∃ r, Matched rows username ident r) → ∃ r, Named rows username ident r) := by
  constructor
  · intro h hmatched
    by_contra hnamed
    exact (notFound_iff hlen).1 (h.notFound.2 hnamed) hmatched
  · intro h
    constructor
    · intro s hs
      obtain ⟨hfound, hrows⟩ := found_of_revoked hlen hs
      have hone : ∀ r, Matched rows username ident r → r.sid = s := by
        intro r hr
        have hmem := mem_found_iff.2 ⟨r, hr, rfl⟩
        rw [hfound] at hmem
        exact List.mem_singleton.1 hmem
      have hsome : ∃ r, Matched rows username ident r :=
        found_ne_nil_iff.1 (by rw [hfound]; exact List.cons_ne_nil _ _)
      obtain ⟨r, hr⟩ := h hsome
      refine ⟨⟨r, hr, hone r hr.matched⟩, fun r' hr' => hone r' hr'.matched, fun k => ?_⟩
      rw [hrows, Table.find?_update]
      split_ifs with hk
      · rw [hk]
      · rfl
    · rw [notFound_iff hlen]
      constructor
      · rintro hnone ⟨r, hr⟩
        exact hnone ⟨r, hr.matched⟩
      · intro hnone hmatched
        exact hnone (h hmatched)

/-- The session of an id that begins with the same letters in capitals. -/
def capitalRows : Rows where
  rows := [⟨"ABCDEFGHIJKL".toList, "u".toList, false⟩]
  nodup := by decide

theorem precise_own_id :
    8 ≤ "ABCDEFGH".toList.length ∧ Precise capitalRows "u".toList "ABCDEFGH".toList := by
  have hlen : 8 ≤ "ABCDEFGH".toList.length := by decide
  refine ⟨hlen, (precise_iff capitalRows "u".toList "ABCDEFGH".toList hlen).2 fun _ => ?_⟩
  exact ⟨⟨"ABCDEFGHIJKL".toList, "u".toList, false⟩, ⟨⟨List.mem_singleton_self _, rfl, rfl⟩, by decide⟩⟩

/-- Another id is closed: the letters compare without their case. -/
theorem not_precise_other_case :
    (revokeOne capitalRows "u".toList "abcdefgh".toList).1 = .revoked "ABCDEFGHIJKL".toList ∧
      ¬ ∀ (rows : Rows) (username ident : List Char), 8 ≤ ident.length →
        Precise rows username ident := by
  have hrevoked : (revokeOne capitalRows "u".toList "abcdefgh".toList).1 =
      .revoked "ABCDEFGHIJKL".toList := by decide +kernel
  refine ⟨hrevoked, fun h => ?_⟩
  obtain ⟨⟨r, hr, hsid⟩, -⟩ :=
    (h capitalRows "u".toList "abcdefgh".toList (by decide)).revoked _ hrevoked
  have hstart := hr.start
  rw [hsid] at hstart
  exact absurd hstart (by decide)

end Outcomes

/-! ## The accounts apart -/

/-- `revoke_others`: how many sessions are closed, and the rows after it. -/
def revokeOthers (rows : Rows) (username : List Char) (currentSid : Option (List Char)) : Nat × Rows :=
  let other := fun r : Session => r.username = username && (r.sid ≠ currentSid.getD [] && !r.revoked)
  (rows.rows.countP other, rows.updateWhere other Session.close Session.close_sid)

inductive Request where
  | one (username ident : List Char)
  | others (username : List Char) (currentSid : Option (List Char))

inductive Answer where
  | one (o : Outcome)
  | others (closed : Nat)

def Request.username : Request → List Char
  | .one username _ | .others username _ => username

def Request.handle (rows : Rows) : Request → Answer × Rows
  | .one username ident =>
      (.one (revokeOne rows username ident).1, (revokeOne rows username ident).2)
  | .others username currentSid =>
      (.others (revokeOthers rows username currentSid).1, (revokeOthers rows username currentSid).2)

/-- Requests one after the other: the answers, each with its account, and the rows in the end. -/
def handleAll (rows : Rows) : List Request → List (List Char × Answer) × Rows
  | [] => ([], rows)
  | q :: qs =>
      ((q.username, (q.handle rows).1) :: (handleAll (q.handle rows).2 qs).1,
        (handleAll (q.handle rows).2 qs).2)

/-- The sessions of one account. -/
def own (username : List Char) (rows : Rows) : List Session :=
  rows.rows.filter fun r => r.username = username

section Apart

variable {rows rows' : Rows} {u ident : List Char} {p : Session → Bool}

theorem own_updateWhere : own u (rows.updateWhere p Session.close Session.close_sid) =
    (own u rows).map fun r => if p r then r.close else r := by
  simp only [own, Table.updateWhere, List.filter_map]
  refine congrArg _ (List.filter_congr fun r _ => ?_)
  simp only [Function.comp_apply]
  split <;> rfl

theorem own_updateWhere_of_ne (h : ∀ r ∈ rows.rows, r.username = u → p r = false) :
    own u (rows.updateWhere p Session.close Session.close_sid) = own u rows := by
  rw [own_updateWhere]
  refine (List.map_congr_left fun r hr => ?_).trans (List.map_id _)
  obtain ⟨hmem, hu⟩ := List.mem_filter.1 hr
  rw [h r hmem (of_decide_eq_true hu)]
  rfl

theorem found_eq : found rows u ident =
    ((own u rows).filter fun r => !r.revoked && like (ident ++ ['%']) r.sid).map Session.sid := by
  rw [found, own, List.filter_filter]
  refine congrArg _ (List.filter_congr fun r _ => ?_)
  rw [Bool.and_assoc, Bool.and_comm]

theorem own_handle_of_ne {q : Request} (h : q.username ≠ u) : own u (q.handle rows).2 = own u rows := by
  cases q with
  | one v ident =>
    simp only [Request.handle, revokeOne]
    split
    · rfl
    · split
      · rfl
      · next target hfound =>
        -- the row found is of the account that asks, and no other row has its id
        obtain ⟨r, hr, rfl⟩ := mem_found_iff.1 (hfound ▸ List.mem_singleton_self target)
        refine own_updateWhere_of_ne fun r' hr' hu => decide_eq_false fun hsid => ?_
        have hsame := Table.find?_of_mem hr'
        rw [hsid, Table.find?_of_mem hr.mem] at hsame
        exact h (hr.owner.symm.trans (Option.some.inj hsame ▸ hu))
      · rfl
  | others v currentSid =>
    refine own_updateWhere_of_ne fun r _ hu => ?_
    rw [hu, decide_eq_false (p := u = v) (Ne.symm h), Bool.false_and]

theorem handle_congr {q : Request} (h : own q.username rows = own q.username rows') :
    (q.handle rows).1 = (q.handle rows').1 ∧
      own q.username (q.handle rows).2 = own q.username (q.handle rows').2 := by
  cases q with
  | one v ident =>
    have hfound : found rows v ident = found rows' v ident := by
      rw [found_eq, found_eq]
      exact congrArg (fun l => List.map _ (List.filter _ l)) h
    simp only [Request.handle, revokeOne, hfound]
    split
    · exact ⟨rfl, h⟩
    · split
      · exact ⟨rfl, h⟩
      · exact ⟨rfl, own_updateWhere.trans ((congrArg _ h).trans own_updateWhere.symm)⟩
      · exact ⟨rfl, h⟩
  | others v currentSid =>
    refine ⟨congrArg Answer.others ?_, own_updateWhere.trans ((congrArg _ h).trans own_updateWhere.symm)⟩
    have hcount : ∀ t : Rows, (revokeOthers t v currentSid).1 =
        (own v t).countP fun r => r.sid ≠ currentSid.getD [] && !r.revoked := fun t => by
      rw [own, List.countP_filter]
      exact List.countP_congr fun r _ => by rw [Bool.and_comm]
    rw [hcount, hcount]
    exact congrArg _ h

/-- What an account is answered, and which of its sessions are left open, is what it would be
if no other account had closed any. -/
theorem isolated (rows : Rows) (u : List Char) (qs : List Request) :
    (handleAll rows qs).1.filter (fun a => a.1 = u) =
        (handleAll rows (qs.filter fun q => q.username = u)).1 ∧
      own u (handleAll rows qs).2 = own u (handleAll rows (qs.filter fun q => q.username = u)).2 := by
  suffices hall : ∀ rows rows' : Rows, own u rows = own u rows' →
      (handleAll rows qs).1.filter (fun a => a.1 = u) =
          (handleAll rows' (qs.filter fun q => q.username = u)).1 ∧
        own u (handleAll rows qs).2 = own u (handleAll rows' (qs.filter fun q => q.username = u)).2 from
    hall rows rows rfl
  induction qs with
  | nil => exact fun _ _ h => ⟨rfl, h⟩
  | cons q qs ih =>
    intro rows rows' h
    by_cases hu : q.username = u
    · subst hu
      obtain ⟨hanswer, hown⟩ := handle_congr h
      obtain ⟨hanswers, hrest⟩ := ih _ _ hown
      simp only [handleAll, List.filter_cons, decide_true, if_true]
      exact ⟨by rw [hanswers, hanswer], hrest⟩
    · have hown := (own_handle_of_ne hu).trans h
      simpa only [handleAll, List.filter_cons, decide_eq_false hu, Bool.false_eq_true, if_false] using ih _ _ hown

end Apart

end Portal.Sessions
