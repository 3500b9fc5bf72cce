import DgxPlatform.Lib.Json
import DgxPlatform.Lib.Text
import DgxPlatform.Lib.Table
import DgxPlatform.Portal.Basic
import Mathlib.Data.List.Sort

/-! # Saved conversations

What `POST /conversations` stores: the messages in their stored form
(`stored_messages`), within a budget (`trim_to_budget`), upserted under the
client's id, and only the most recent conversations of the account kept.

The table here is the one of a single account. Its clock is the time of the last
save: a save is dated after everything that is stored.
-/

namespace Portal.Conversations

/-- Python's truth of a JSON value. -/
def truthy : Json → Bool
  | .null => false
  | .bool b => b
  | .num n => n != 0
  | .str s => !s.isEmpty
  | .arr xs => !xs.isEmpty
  | .obj fields => !fields.isEmpty

/-! ## The JSON texts -/

def hexDigit (n : Nat) : Char := if n < 10 then Char.ofNat (48 + n) else Char.ofNat (87 + n)

/-- A character inside a JSON string, non-ASCII kept. -/
def escaped (c : Char) : List Char :=
  if c = '"' then ['\\', '"']
  else if c = '\\' then ['\\', '\\']
  else if c = '\n' then ['\\', 'n']
  else if c = '\r' then ['\\', 'r']
  else if c = '\t' then ['\\', 't']
  else if c.toNat = 0x08 then ['\\', 'b']
  else if c.toNat = 0x0c then ['\\', 'f']
  else if c.toNat < 0x20 then
    ['\\', 'u', '0', '0', hexDigit (c.toNat / 16), hexDigit (c.toNat % 16)]
  else [c]

def writeStr (s : List Char) : List Char := ['"'] ++ s.flatMap escaped ++ ['"']

mutual

/-- A JSON value as a text, with the separators of the writer. -/
def write (comma colon : List Char) : Json → List Char
  | .null => "null".toList
  | .bool b => if b then "true".toList else "false".toList
  | .num n => (toString n).toList
  | .str s => writeStr s
  | .arr xs => ['['] ++ writeItems comma colon xs ++ [']']
  | .obj fields => ['\x7b'] ++ writeFields comma colon fields ++ ['\x7d']

def writeItems (comma colon : List Char) : List Json → List Char
  | [] => []
  | [x] => write comma colon x
  | x :: xs => write comma colon x ++ comma ++ writeItems comma colon xs

def writeFields (comma colon : List Char) : List (String × Json) → List Char
  | [] => []
  | [(k, x)] => writeStr k.toList ++ colon ++ write comma colon x
  | (k, x) :: fields =>
      writeStr k.toList ++ colon ++ write comma colon x ++ comma ++ writeFields comma colon fields

end

/-- `py_dumps`: Python's `json.dumps(..., ensure_ascii=False)`. -/
def pyDumps (v : Json) : List Char := write ", ".toList ": ".toList v

/-- `py_str`: Python's `str` of a message's field. -/
def pyStr : Option Json → List Char
  | none => []
  | some (.str s) => s
  | some .null => "None".toList
  | some (.bool b) => if b then "True".toList else "False".toList
  | some other => write [','] [':'] other

/-! ## The stored form -/

def MSG_MAX_CHARS : Nat := 400000
def CONV_MAX_CHARS : Nat := 2000000
def CONVERSATIONS_MAX : Nat := 30
def MAX_FILES : Nat := 40
def MAX_FILE_CHARS : Nat := 400000
def MAX_TOTAL_CHARS : Nat := 1200000
def IMAGES_PER_MESSAGE : Nat := 4
def IMAGE_MAX_CHARS : Nat := 3000000

/-- A file as `parse_files` keeps it. -/
abbrev NamedFile := List Char × List Char

/-- A later entry of a known name replaces its content in place. -/
def setFile (files : List NamedFile) (name content : List Char) : List NamedFile :=
  if files.any fun f => f.1 == name then
    files.map fun f => if f.1 = name then (name, content) else f
  else files ++ [(name, content)]

/-- The loop of `parse_files`; a file past the total ends it. -/
def parseFilesFrom (files : List NamedFile) (total : Nat) : List Json → List NamedFile
  | [] => files
  | .obj fields :: rest =>
      let name := (Text.trim (pyStr ((fields.lookup "name").filter truthy))).take 200
      match fields.lookup "content" with
      | some (.str content) =>
          if name.isEmpty || content.length > MAX_FILE_CHARS then parseFilesFrom files total rest
          else if total + content.length > MAX_TOTAL_CHARS then files
          else parseFilesFrom (setFile files name content) (total + content.length) rest
      | _ => parseFilesFrom files total rest
  | _ :: rest => parseFilesFrom files total rest

/-- `parse_files`: names and contents, bounded, in the order first seen. -/
def parseFiles : Option Json → List NamedFile
  | some (.arr list) => parseFilesFrom [] 0 (list.take MAX_FILES)
  | _ => []

/-- `is_image_data_url`: base64 of one of the four formats, the whole text. -/
def isImageDataUrl (u : List Char) : Bool :=
  match ["png", "jpeg", "webp", "gif"].findSome? fun t =>
      let head := ("data:image/" ++ t ++ ";base64,").toList
      if head.isPrefixOf u then some (u.drop head.length) else none with
  | none => false
  | some rest =>
      let body := Text.trimEndMatches (· == '=') rest
      !body.isEmpty && rest.length - body.length ≤ 2
        && body.all fun c => c.isAlphanum || c == '+' || c == '/'

/-- `valid_images`. -/
def validImages (images : Option Json) : List (List Char) :=
  match images with
  | some (.arr imgs) =>
      ((imgs.take IMAGES_PER_MESSAGE).filterMap Json.str?).filter fun u =>
        u.length ≤ IMAGE_MAX_CHARS && isImageDataUrl u
  | _ => []

/-- The flags of a message, as the stored form keeps them: only when true. -/
def flagFields (m : Json) : List (String × Json) :=
  ["hidden", "isError", "truncated", "pending"].flatMap fun flag =>
    Json.optional flag (if (m.get? flag).any truthy then some (.bool true) else none)

/-- What an assistant message also keeps: its thinking and its edited files. -/
def assistantFields (m : Json) : List (String × Json) :=
  let reasoning := (pyStr (m.get? "reasoning")).take MSG_MAX_CHARS
  let edits := parseFiles (m.get? "fileEdits")
  Json.optional "reasoning" (if reasoning.isEmpty then none else some (.str reasoning)) ++
    Json.optional "fileEdits" (if edits.isEmpty then none else
      some (.arr (edits.map fun f => .obj [("name", .str f.1), ("content", .str f.2)])))

/-- What a user message also keeps: its images. -/
def userFields (m : Json) : List (String × Json) :=
  let imgs := validImages (m.get? "images")
  Json.optional "images" (if imgs.isEmpty then none else some (.arr (imgs.map .str)))

/-- The stored form of one message; other roles are dropped. -/
def storedMessage (m : Json) : Option Json :=
  match m with
  | .obj _ =>
      let role := ((m.get? "role").bind Json.str?).getD []
      if role = "user".toList ∨ role = "assistant".toList then
        let content := (pyStr (some ((m.get? "content").getD (.str [])))).take MSG_MAX_CHARS
        some (.obj ([("role", .str role), ("content", .str content)] ++ flagFields m ++
          if role = "assistant".toList then assistantFields m else userFields m))
      else none
  | _ => none

/-- `stored_messages`: the last 60. -/
def storedMessages (messages : List Json) : List Json :=
  let out := messages.filterMap storedMessage
  out.drop (out.length - 60)

/-- The length of the text of a list of messages. -/
def dumpedLength (messages : List Json) : Nat := (pyDumps (.arr messages)).length

/-- The first loop of `trim_to_budget`: an incremental count. -/
def trimCounted (total : Nat) : List Json → List Json
  | m :: m' :: rest =>
      if total > CONV_MAX_CHARS then trimCounted (total - ((pyDumps m).length + 2)) (m' :: rest)
      else m :: m' :: rest
  | messages => messages

/-- The second loop: the exact check. -/
def trimExact : List Json → List Json
  | m :: m' :: rest =>
      if dumpedLength (m :: m' :: rest) > CONV_MAX_CHARS then trimExact (m' :: rest)
      else m :: m' :: rest
  | messages => messages

/-- `trim_to_budget`: the oldest messages go, one is kept at least. -/
def trimToBudget (messages : List Json) : List Json :=
  trimExact (trimCounted (dumpedLength messages) messages)

/-- What the server keeps of the messages of a save. -/
def kept (messages : List Json) : List Json := trimToBudget (storedMessages messages)

/-! ## The table -/

/-- A conversation of the account. -/
structure Row where
  clientId : List Char
  title : List Char
  model : List Char
  messages : List Json
  updatedAt : Time

/-- The conversations of one account, none dated after the clock. -/
structure Store where
  rows : Table Row Row.clientId
  clock : Time
  dated : ∀ r ∈ rows.rows, r.updatedAt ≤ clock

/-- What the conflict clause of the upsert writes. -/
def Row.overwrite (new old : Row) : Row := { new with clientId := old.clientId }

theorem overwrite_clientId (new old : Row) : (new.overwrite old).clientId = old.clientId := rfl

/-- The row a save writes, `elapsed` after the last one. -/
def Store.newRow (s : Store) (elapsed : Time) (clientId title model : List Char)
    (messages : List Json) : Row :=
  { clientId := clientId, title := title, model := model, messages := kept messages
    updatedAt := s.clock + 1 + elapsed }

/-- The upsert of a save. -/
def Store.upserted (s : Store) (row : Row) : Table Row Row.clientId :=
  s.rows.upsert row row.overwrite (overwrite_clientId row)

/-- The rows after a save: upserted, the 30 most recent. -/
def Store.savedRows (s : Store) (row : Row) : Table Row Row.clientId :=
  (s.upserted row).keepNewest Row.updatedAt CONVERSATIONS_MAX

theorem mem_upserted {s : Store} {row r : Row} (h : r ∈ (s.upserted row).rows) : r ∈ s.rows.rows ∨ r = row := by
  unfold Store.upserted Table.upsert at h
  split at h
  · rcases List.mem_append.1 h with hold | hnew
    · exact Or.inl hold
    · exact Or.inr (by simpa using hnew)
  · rw [Table.update_rows] at h
    obtain ⟨q, hq, rfl⟩ := List.mem_map.1 h
    by_cases hk : q.clientId = row.clientId
    · right
      rw [if_pos hk]
      simp only [Row.overwrite, hk]
    · left
      rw [if_neg hk]
      exact hq

theorem dated_savedRows (s : Store) {row : Row} (hrow : s.clock < row.updatedAt) :
    ∀ r ∈ (s.savedRows row).rows, r.updatedAt ≤ row.updatedAt := by
  intro r hr
  rcases mem_upserted (List.mem_filter.1 hr).1 with hold | rfl
  · exact Nat.le_of_lt (Nat.lt_of_le_of_lt (s.dated r hold) hrow)
  · exact Nat.le_refl _

theorem clock_lt_newRow (s : Store) (elapsed : Time) (clientId title model : List Char) (messages : List Json) :
    s.clock < (s.newRow elapsed clientId title model messages).updatedAt := by
  exact Nat.lt_of_lt_of_le (Nat.lt_succ_self s.clock) (Nat.le_add_right (s.clock + 1) elapsed)

/-- `save`. -/
def save (s : Store) (elapsed : Time) (clientId title model : List Char) (messages : List Json) :
    Store where
  rows := s.savedRows (s.newRow elapsed clientId title model messages)
  clock := s.clock + 1 + elapsed
  dated := dated_savedRows s (clock_lt_newRow s elapsed clientId title model messages)

/-- The form of a save; `messages` is the parsed field, `none` when it is no JSON. -/
structure SaveForm where
  id : List Char
  title : List Char
  model : List Char
  messages : Option Json

/-- `conversations_post` with the action "save", once the session is checked. -/
def conversationsPost (s : Store) (elapsed : Time) (form : SaveForm) : Except Refusal Store :=
  let clientId := (Text.trim form.id).take 64
  let title := (Text.trim form.title).take 120
  let model := (Text.trim form.model).take 80
  if clientId.isEmpty then .error ⟨"id manquant", 400⟩
  else
    match form.messages with
    | some (.arr messages) =>
        .ok (save s elapsed clientId (if title.isEmpty then "Conversation".toList else title) model
          messages)
    | _ => .error ⟨"messages invalides", 400⟩

theorem find?_upserted (s : Store) (row : Row) : (s.upserted row).find? row.clientId = some row := by
  unfold Store.upserted
  rw [Table.find?_upsert, if_pos rfl]
  refine congrArg some ?_
  rcases hfind : s.rows.find? row.clientId with _ | q
  · rfl
  · have hkey : q.clientId = row.clientId := Table.key_of_find? hfind
    simp only [Option.map_some, Option.getD_some, Row.overwrite, hkey]

theorem find?_savedRows (s : Store) {row : Row} (hrow : s.clock < row.updatedAt) :
    (s.savedRows row).find? row.clientId = some row := by
  refine Table.find?_keepNewest (find?_upserted s row) ?_ (by decide)
  intro q hq hne
  rcases mem_upserted hq with hold | rfl
  · exact Nat.lt_of_le_of_lt (s.dated q hold) hrow
  · exact absurd rfl hne

/-- A save leaves the conversation of its id as it wrote it, whatever was there. -/
theorem find?_save (s : Store) (elapsed : Time) (clientId title model : List Char) (messages : List Json) :
    (save s elapsed clientId title model messages).rows.find? clientId =
      some (s.newRow elapsed clientId title model messages) :=
  find?_savedRows s (clock_lt_newRow s elapsed clientId title model messages)

/-! ## What the budget drops -/

variable {messages : List Json}

theorem trimCounted_of_le {total : Nat} (h : total ≤ CONV_MAX_CHARS) :
    trimCounted total messages = messages := by
  unfold trimCounted
  split
  · rw [if_neg (by omega)]
  · rfl

theorem trimExact_of_le (h : dumpedLength messages ≤ CONV_MAX_CHARS) : trimExact messages = messages := by
  unfold trimExact
  split
  · rw [if_neg (by omega)]
  · rfl

theorem trimToBudget_of_le (h : dumpedLength messages ≤ CONV_MAX_CHARS) : trimToBudget messages = messages := by
  unfold trimToBudget
  rw [trimCounted_of_le h, trimExact_of_le h]

theorem trimCounted_suffix (total : Nat) (messages : List Json) :
    ∃ n, trimCounted total messages = messages.drop n ∧ (messages ≠ [] → n < messages.length) := by
  fun_induction trimCounted total messages with
  | case1 total m m' rest _ ih =>
    obtain ⟨n, hn, hlt⟩ := ih
    exact ⟨n + 1, by rw [hn, List.drop_succ_cons], fun _ => by simpa using hlt (by simp)⟩
  | case2 total m m' rest _ => exact ⟨0, rfl, fun _ => by simp⟩
  | case3 total messages _ => exact ⟨0, rfl, fun h => List.length_pos_of_ne_nil h⟩

theorem trimExact_suffix (messages : List Json) :
    ∃ n, trimExact messages = messages.drop n ∧ (messages ≠ [] → n < messages.length) := by
  fun_induction trimExact messages with
  | case1 m m' rest _ ih =>
    obtain ⟨n, hn, hlt⟩ := ih
    exact ⟨n + 1, by rw [hn, List.drop_succ_cons], fun _ => by simpa using hlt (by simp)⟩
  | case2 m m' rest _ => exact ⟨0, rfl, fun _ => by simp⟩
  | case3 messages _ => exact ⟨0, rfl, fun h => List.length_pos_of_ne_nil h⟩

theorem trimToBudget_suffix (messages : List Json) :
    ∃ n, trimToBudget messages = messages.drop n ∧ (messages ≠ [] → n < messages.length) := by
  obtain ⟨n, hn, hlt⟩ := trimCounted_suffix (dumpedLength messages) messages
  obtain ⟨m, hm, hlt'⟩ := trimExact_suffix (messages.drop n)
  refine ⟨n + m, ?_, ?_⟩
  · unfold trimToBudget
    rw [hn, hm, List.drop_drop]
  · intro h
    have hnlt := hlt h
    have hdrop : messages.drop n ≠ [] := by
      intro hnil
      have := List.drop_eq_nil_iff.1 hnil
      omega
    have hmlt := hlt' hdrop
    rw [List.length_drop] at hmlt
    omega

theorem storedMessages_suffix (messages : List Json) :
    storedMessages messages <:+ messages.filterMap storedMessage := List.drop_suffix _ _

theorem kept_suffix (messages : List Json) : kept messages <:+ messages.filterMap storedMessage := by
  obtain ⟨n, hn, -⟩ := trimToBudget_suffix (storedMessages messages)
  unfold kept
  rw [hn]
  exact (List.drop_suffix _ _).trans (storedMessages_suffix messages)

theorem getLast?_kept {m : Json} (h : (messages.filterMap storedMessage).getLast? = some m) :
    (kept messages).getLast? = some m := by
  have hne : messages.filterMap storedMessage ≠ [] := by
    intro hnil
    rw [hnil] at h
    cases h
  have hpos := List.length_pos_of_ne_nil hne
  have hstored : (storedMessages messages).getLast? = some m := by
    show ((messages.filterMap storedMessage).drop _).getLast? = some m
    rw [List.getLast?_drop, if_neg (by omega), h]
  obtain ⟨n, hn, hlt⟩ := trimToBudget_suffix (storedMessages messages)
  have hsne : storedMessages messages ≠ [] := by
    intro hnil
    rw [hnil] at hstored
    cases hstored
  unfold kept
  rw [hn, List.getLast?_drop, if_neg (by have := hlt hsne; omega), hstored]

end Portal.Conversations
