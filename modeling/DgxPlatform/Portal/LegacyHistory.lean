import DgxPlatform.Portal.Conversations

/-! # The history the old version left

`migrateLegacyConversations` saves each conversation that the old version of the
page left in the browser's local storage, one after the other, and then clears
the storage. Each save answers whether it went through; the loop does not look.

What is `Stored` on the server at the end are the last saves that went through
under each server id, `lastSaved`; up to thirty of them stay.
-/

namespace Portal.LegacyHistory

open Conversations

/-- A conversation of the old history with a list of messages; the other fields as
the form writes them. -/
structure Conversation where
  id : List Char
  title : List Char
  model : List Char
  messages : List Json

/-- An entry of the old history: `none` is no object with a list of messages. -/
abbrev Entry := Option Conversation

/-- What becomes of a request: refused or lost on its way, or before the server so
long after the save before it. -/
abbrev Fate := Option Time

/-- The account's conversations on the server, and the browser's storage under
`LEGACY_KEY`: `none` when there is nothing, or no list. -/
structure World where
  server : Store
  legacy : Option (List Entry)

def saveForm (c : Conversation) : SaveForm :=
  { id := c.id, title := c.title, model := c.model, messages := some (.arr c.messages) }

/-- `persistConversation`: the server afterwards, and whether the save went through. -/
def persistConversation (s : Store) (fate : Fate) (c : Conversation) : Store × Bool :=
  match fate with
  | none => (s, false)
  | some elapsed =>
      match conversationsPost s elapsed (saveForm c) with
      | .ok s' => (s', true)
      | .error _ => (s, false)

/-- The loop of `migrateLegacyConversations`, at the `n`-th save. -/
def saveAll (fates : Nat → Fate) (s : Store) (n : Nat) : List Entry → Store
  | [] => s
  | none :: rest => saveAll fates s n rest
  | some c :: rest =>
      if c.messages.isEmpty then saveAll fates s n rest
      -- the answer is awaited and not looked at
      else saveAll fates (persistConversation s (fates n) c).1 (n + 1) rest

/-- `migrateLegacyConversations`. -/
def migrateLegacyConversations (fates : Nat → Fate) (w : World) : World × Bool :=
  match w.legacy with
  | some (e :: rest) => ({ server := saveAll fates w.server 0 (e :: rest), legacy := none }, true)
  | _ => (w, false)

/-! ## What is not lost -/

/-- The id of a conversation on the server. -/
def serverId (c : Conversation) : List Char := (Text.trim c.id).take 64

/-- What the server stores of a conversation. -/
def content (c : Conversation) : List Char × List Char × List Json :=
  let title := (Text.trim c.title).take 120
  (if title.isEmpty then "Conversation".toList else title, (Text.trim c.model).take 80, kept c.messages)

def rowContent (r : Row) : List Char × List Char × List Json := (r.title, r.model, r.messages)

def Stored (s : Store) (c : Conversation) : Prop :=
  ∃ r, s.rows.find? (serverId c) = some r ∧ rowContent r = content c

/-- On the server, or still in the browser. -/
def Survives (w : World) (c : Conversation) : Prop :=
  Stored w.server c ∨ ∃ l, w.legacy = some l ∧ some c ∈ l

/-- No conversation with a message is lost, whatever the server held before. -/
def LosesNothing (legacy : List Entry) (fates : Nat → Fate) : Prop :=
  ∀ s c, some c ∈ legacy → c.messages ≠ [] →
    Survives (migrateLegacyConversations fates ⟨s, some legacy⟩).1 c

/-- The conversations whose saves go through, in the order of the saves. -/
def accepted (fates : Nat → Fate) (n : Nat) : List Entry → List Conversation
  | [] => []
  | none :: rest => accepted fates n rest
  | some c :: rest =>
      if c.messages.isEmpty then accepted fates n rest
      else if (fates n).isSome && !(serverId c).isEmpty then c :: accepted fates (n + 1) rest
      else accepted fates (n + 1) rest

/-- The last one of them under a server id. -/
def lastSaved (saved : List Conversation) (k : List Char) : Option Conversation :=
  saved.reverse.find? fun c => serverId c = k

/-! ## One save -/

theorem persistConversation_refused {s : Store} {fate : Fate} {c : Conversation}
    (h : (fate.isSome && !(serverId c).isEmpty) = false) : (persistConversation s fate c).1 = s := by
  unfold persistConversation
  cases fate with
  | none => rfl
  | some elapsed =>
    have hempty : (serverId c).isEmpty = true := by simpa using h
    unfold serverId at hempty
    unfold conversationsPost saveForm
    dsimp only
    rw [if_pos hempty]

theorem persistConversation_accepted {s : Store} {fate : Fate} {c : Conversation}
    (h : (fate.isSome && !(serverId c).isEmpty) = true) :
    ∃ row : Row, s.clock < row.updatedAt ∧ row.clientId = serverId c ∧ rowContent row = content c ∧
      (persistConversation s fate c).1.rows = s.savedRows row := by
  rw [Bool.and_eq_true] at h
  obtain ⟨hfate, hid⟩ := h
  obtain ⟨elapsed, rfl⟩ := Option.isSome_iff_exists.1 hfate
  have hempty : ¬ ((Text.trim c.id).take 64).isEmpty = true := by
    intro hnil
    unfold serverId at hid
    rw [hnil] at hid
    cases hid
  refine ⟨s.newRow elapsed (serverId c) (content c).1 (content c).2.1 c.messages,
    clock_lt_newRow _ _ _ _ _ _, rfl, rfl, ?_⟩
  unfold persistConversation conversationsPost saveForm
  dsimp only
  rw [if_neg hempty]
  rfl

theorem find?_of_savedRows {s : Store} {row r : Row} {k : List Char} (hk : k ≠ row.clientId)
    (h : (s.savedRows row).find? k = some r) : s.rows.find? k = some r := by
  have hup := (Table.find?_of_delete h).1
  unfold Store.upserted at hup
  rwa [Table.find?_upsert, if_neg hk] at hup

/-! ## A run of saves -/

/-- The last saves, the latest first, stand on the server; what is dated after one of
them has been saved after it. -/
def Recent (s : Store) (latest : List Conversation) : Prop :=
  ∀ newer c older, latest = newer ++ c :: older → (∀ d ∈ newer, serverId d ≠ serverId c) →
    ∃ r, s.rows.find? (serverId c) = some r ∧ rowContent r = content c ∧
      ∀ q ∈ s.rows.rows, r.updatedAt ≤ q.updatedAt → q.clientId ∈ (newer ++ [c]).map serverId

theorem recent_nil (s : Store) : Recent s [] := by
  intro newer c older hnil
  exact absurd hnil.symm (List.append_ne_nil_of_right_ne_nil newer (List.cons_ne_nil c older))

theorem recent_accept {s s' : Store} {row : Row} {c : Conversation} {latest : List Conversation}
    (h : Recent s latest) (hlen : latest.length < CONVERSATIONS_MAX) (hdate : s.clock < row.updatedAt)
    (hid : row.clientId = serverId c) (hcontent : rowContent row = content c)
    (hrows : s'.rows = s.savedRows row) : Recent s' (c :: latest) := by
  intro newer d older hsplit hnewer
  rw [hrows]
  cases newer with
  | nil =>
    -- the save itself: nothing is dated after it
    cases hsplit
    refine ⟨row, hid ▸ find?_savedRows s hdate, hcontent, fun q hq hle => ?_⟩
    rcases mem_upserted (List.mem_filter.1 hq).1 with hold | rfl
    · have hlt := Nat.lt_of_le_of_lt (s.dated q hold) hdate
      exact absurd hle (Nat.not_le_of_gt hlt)
    · rw [hid]
      exact List.mem_singleton.2 rfl
  | cons e newer =>
    rw [List.cons_append] at hsplit
    injection hsplit with he hsplit
    subst he
    obtain ⟨r, hfind, hr, hafter⟩ := h newer d older hsplit fun x hx => hnewer x (List.mem_cons_of_mem c hx)
    have hne : serverId d ≠ row.clientId := by
      rw [hid]
      exact (hnewer c List.mem_cons_self).symm
    have hup : (s.upserted row).find? (serverId d) = some r := by
      unfold Store.upserted
      rw [Table.find?_upsert, if_neg hne]
      exact hfind
    have hkeys : ∀ q ∈ (s.upserted row).rows, r.updatedAt ≤ q.updatedAt →
        q.clientId ∈ (c :: newer ++ [d]).map serverId := by
      intro q hq hle
      rcases mem_upserted hq with hold | rfl
      · exact List.mem_cons_of_mem _ (hafter q hold hle)
      · rw [hid]
        exact List.mem_cons_self
    refine ⟨r, ?_, hr, fun q hq hle => hkeys q (List.mem_filter.1 hq).1 hle⟩
    refine Table.find?_keepNewest_of_keys hup hkeys ?_
    rw [hsplit] at hlen
    simp only [List.length_append, List.length_cons] at hlen
    simp only [List.length_map, List.length_append, List.length_cons, List.length_nil]
    omega

theorem saveAll_recent (fates : Nat → Fate) {s : Store} {latest : List Conversation} (n : Nat)
    (l : List Entry) (h : Recent s latest)
    (hlen : latest.length + (accepted fates n l).length ≤ CONVERSATIONS_MAX) :
    Recent (saveAll fates s n l) ((accepted fates n l).reverse ++ latest) := by
  fun_induction accepted fates n l generalizing s latest with
  | case1 n => exact h
  | case2 n rest ih => exact ih h hlen
  | case3 n c rest hempty ih =>
    rw [saveAll, if_pos hempty]
    exact ih h hlen
  | case4 n c rest hempty hok ih =>
    rw [saveAll, if_neg hempty]
    obtain ⟨row, hdate, hid, hcontent, hrows⟩ := persistConversation_accepted (s := s) hok
    rw [List.length_cons] at hlen
    rw [List.reverse_cons, List.append_assoc, List.singleton_append]
    refine ih (recent_accept h (by omega) hdate hid hcontent hrows) ?_
    rw [List.length_cons]
    omega
  | case5 n c rest hempty hok ih =>
    rw [saveAll, if_neg hempty, persistConversation_refused (by simpa using hok)]
    exact ih h hlen

theorem find?_of_saveAll (fates : Nat → Fate) {s : Store} {k : List Char} {r : Row} (n : Nat)
    (l : List Entry) (hk : ∀ c ∈ accepted fates n l, serverId c ≠ k)
    (h : (saveAll fates s n l).rows.find? k = some r) : s.rows.find? k = some r := by
  fun_induction accepted fates n l generalizing s with
  | case1 n => exact h
  | case2 n rest ih => exact ih hk h
  | case3 n c rest hempty ih =>
    rw [saveAll, if_pos hempty] at h
    exact ih hk h
  | case4 n c rest hempty hok ih =>
    rw [saveAll, if_neg hempty] at h
    obtain ⟨row, -, hid, -, hrows⟩ := persistConversation_accepted (s := s) hok
    have hfind := ih (fun d hd => hk d (List.mem_cons_of_mem c hd)) h
    rw [hrows] at hfind
    refine find?_of_savedRows ?_ hfind
    rw [hid]
    exact (hk c List.mem_cons_self).symm
  | case5 n c rest hempty hok ih =>
    rw [saveAll, if_neg hempty, persistConversation_refused (by simpa using hok)] at h
    exact ih hk h

theorem length_accepted_le (fates : Nat → Fate) (n : Nat) (l : List Entry) :
    (accepted fates n l).length ≤ l.length := by
  fun_induction accepted fates n l with
  | case1 n => exact Nat.le_refl _
  | case2 n rest ih => exact Nat.le_succ_of_le ih
  | case3 n c rest hempty ih => exact Nat.le_succ_of_le ih
  | case4 n c rest hempty hok ih => exact Nat.succ_le_succ ih
  | case5 n c rest hempty hok ih => exact Nat.le_succ_of_le ih

/-! ## What the server holds at the end -/

theorem lastSaved_eq_some {saved : List Conversation} {k : List Char} {d : Conversation}
    (h : lastSaved saved k = some d) :
    serverId d = k ∧ ∃ newer older, saved.reverse = newer ++ d :: older ∧ ∀ e ∈ newer, serverId e ≠ k := by
  obtain ⟨hkey, newer, older, hsplit, hnewer⟩ := List.find?_eq_some_iff_append.1 h
  refine ⟨of_decide_eq_true hkey, newer, older, hsplit, fun e he hek => ?_⟩
  have hfalse := hnewer e he
  rw [decide_eq_true hek] at hfalse
  cases hfalse

section Migration

variable {legacy : List Entry} {fates : Nat → Fate} {c d : Conversation}

theorem saveAll_lastSaved (s : Store) (hlen : legacy.length ≤ CONVERSATIONS_MAX)
    (h : lastSaved (accepted fates 0 legacy) (serverId c) = some d) :
    ∃ r, (saveAll fates s 0 legacy).rows.find? (serverId c) = some r ∧ rowContent r = content d := by
  obtain ⟨hkey, newer, older, hsplit, hnewer⟩ := lastSaved_eq_some h
  have hrecent := saveAll_recent fates 0 legacy (recent_nil s) (by
    have haccepted := length_accepted_le fates 0 legacy
    rw [List.length_nil]
    omega)
  rw [List.append_nil] at hrecent
  obtain ⟨r, hfind, hcontent, -⟩ := hrecent newer d older hsplit (by rw [hkey]; exact hnewer)
  rw [hkey] at hfind
  exact ⟨r, hfind, hcontent⟩

/-- The migration clears the storage, whatever became of the saves. -/
theorem survives_migrate {s : Store} (hmem : some c ∈ legacy) :
    Survives (migrateLegacyConversations fates ⟨s, some legacy⟩).1 c ↔ Stored (saveAll fates s 0 legacy) c := by
  cases legacy with
  | nil => exact absurd hmem List.not_mem_nil
  | cons e rest =>
    constructor
    · rintro (hstored | ⟨l, hl, -⟩)
      · exact hstored
      · cases hl
    · exact Or.inl

end Migration

/-- A server that holds nothing. -/
def emptyStore : Store where
  rows := Table.empty
  clock := 0
  dated := fun _ h => absurd h List.not_mem_nil

/-- Of up to thirty conversations the migration loses none, whatever the server held,
exactly if under the id of each with a message the last save that goes through exists
and writes what the conversation says. -/
theorem migration_loses_nothing_iff (legacy : List Entry) (fates : Nat → Fate) (hlen : legacy.length ≤ 30) :
    LosesNothing legacy fates ↔
      ∀ c, some c ∈ legacy → c.messages ≠ [] →
        (lastSaved (accepted fates 0 legacy) (serverId c)).map content = some (content c) := by
  constructor
  · intro h c hmem hmsg
    obtain ⟨r, hfind, hcontent⟩ := (survives_migrate hmem).1 (h emptyStore c hmem hmsg)
    cases hlast : lastSaved (accepted fates 0 legacy) (serverId c) with
    | none =>
        -- nothing was saved under the id, and the empty server had nothing
        have hnone := List.find?_eq_none.1 hlast
        have hbefore := find?_of_saveAll fates 0 legacy (fun d hd heq =>
          hnone d (List.mem_reverse.2 hd) (decide_eq_true heq)) hfind
        cases hbefore
    | some d =>
        obtain ⟨q, hq, hd⟩ := saveAll_lastSaved emptyStore hlen hlast
        rw [hfind] at hq
        cases hq
        rw [Option.map_some, ← hd, hcontent]
  · intro h s c hmem hmsg
    obtain ⟨d, hlast, hd⟩ := Option.map_eq_some_iff.1 (h c hmem hmsg)
    obtain ⟨r, hfind, hr⟩ := saveAll_lastSaved s hlen hlast
    exact (survives_migrate hmem).2 ⟨r, hfind, hr.trans hd⟩

/-! ## One conversation, one save -/

def sampleConversation : Conversation where
  id := "1699000000000".toList
  title := "Plage".toList
  model := []
  messages := [.obj [("role", .str "user".toList), ("content", .str "Bonjour".toList)]]

theorem migration_loses_nothing_sample :
    LosesNothing [some sampleConversation] (fun _ => some 0) ↔
      ∀ c, some c ∈ [some sampleConversation] → c.messages ≠ [] →
        (lastSaved (accepted (fun _ => some 0) 0 [some sampleConversation]) (serverId c)).map content =
          some (content c) :=
  migration_loses_nothing_iff _ _ (by decide)

/-- The only save is refused, and the storage is cleared. -/
theorem not_loses_nothing_refused : ¬ LosesNothing [some sampleConversation] fun _ => none := by
  intro h
  have hsurvives := h emptyStore sampleConversation List.mem_cons_self (List.cons_ne_nil _ _)
  obtain ⟨r, hfind, -⟩ := (survives_migrate List.mem_cons_self).1 hsurvives
  cases hfind

end Portal.LegacyHistory
