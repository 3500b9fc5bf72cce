import DgxPlatform.Portal.Conversations

/-! # The playground's thread: saved, reopened, and its files

The messages of the page (`ChatMsg`), the form in which they are sent to the
server (`forSave`), how a stored message comes back (`fromSaved`), and the files
of a conversation, which `filesUntil` derives from the thread.

Three field lists have to agree: the client's writer, the server's filter and
the client's reader. The server keeps `fileEdits` and the reader takes it back,
the writer does not send it: a thread reopens as itself exactly when no message
carries an edited file.

The text analysis that `filesUntil` calls (the code blocks of an answer, the edit
blocks, the joining of a resumed file) is a parameter, `Parsers`: what is proved
holds for any choice of it.
-/

namespace Portal.Playground

open Conversations

inductive Role where
  | user
  | assistant
deriving DecidableEq, Repr

def Role.text : Role → List Char
  | .user => "user".toList
  | .assistant => "assistant".toList

/-- The role a text names. -/
def Role.ofText (t : List Char) : Option Role :=
  if t = "user".toList then some .user
  else if t = "assistant".toList then some .assistant
  else none

/-- A file version produced by the edit tools. -/
structure EditedFile where
  name : List Char
  content : List Char
deriving DecidableEq, Repr

/-- A message of the page; `none` is an absent field. -/
structure ChatMsg where
  role : Role
  content : List Char
  reasoning : Option (List Char) := none
  isError : Option Bool := none
  images : Option (List (List Char)) := none
  hidden : Option Bool := none
  truncated : Option Bool := none
  pending : Option Bool := none
  fileEdits : Option (List EditedFile) := none
deriving DecidableEq, Repr

/-- A message as it is saved: the fields that `forSave` lists. -/
structure SavedMsg where
  role : Role
  content : List Char
  hidden : Option Bool
  reasoning : Option (List Char)
  truncated : Option Bool
  isError : Option Bool
  pending : Option Bool
  images : Option (List (List Char))
deriving DecidableEq, Repr

/-! ## Saving -/

def IMAGES_SAVE_BUDGET : Nat := 1500000

/-- The inner loop of `recentImages`, over the images of one message from the last
one on: the images kept, how many may still be kept (`none` for no limit) and the
weight so far. -/
def guardImages (budget : Nat) : Option Nat → Nat → List (List Char) →
    List (List Char) × Option Nat × Nat
  | remaining, weight, [] => ([], remaining, weight)
  | remaining, weight, img :: earlier =>
      if remaining = some 0 then ([], remaining, weight)
      else if weight + img.length > budget then ([], some 0, weight)
      else
        let r := guardImages budget (remaining.map (· - 1)) (weight + img.length) earlier
        (r.1 ++ [img], r.2)

/-- The outer loop, over the messages from the last one on. -/
def recentImagesFrom (budget : Nat) : Option Nat → Nat → List SavedMsg → List SavedMsg
  | _, _, [] => []
  | remaining, weight, m :: earlier =>
      let imgs := m.images.getD []
      if imgs.isEmpty then m :: recentImagesFrom budget remaining weight earlier
      else
        let r := guardImages budget remaining weight imgs.reverse
        { m with images := if r.1.isEmpty then none else some r.1 }
          :: recentImagesFrom budget r.2.1 r.2.2 earlier

/-- `recentImages`: images on the most recent messages only. -/
def recentImages (max : Option Nat) (budget : Nat) (msgs : List SavedMsg) : List SavedMsg :=
  (recentImagesFrom budget max 0 msgs.reverse).reverse

/-- The fields a save sends. -/
def ChatMsg.saved (m : ChatMsg) : SavedMsg :=
  { role := m.role, content := m.content, hidden := m.hidden, reasoning := m.reasoning
    truncated := m.truncated, isError := m.isError, pending := m.pending, images := m.images }

/-- `forSave`. -/
def forSave (msgs : List ChatMsg) : List SavedMsg :=
  recentImages none IMAGES_SAVE_BUDGET (msgs.map ChatMsg.saved)

/-- `JSON.stringify` of a saved message, as the server parses it: an absent field
is not written. -/
def SavedMsg.toJson (m : SavedMsg) : Json :=
  .obj ([("role", .str m.role.text), ("content", .str m.content)] ++
    Json.optional "hidden" (m.hidden.map .bool) ++
    Json.optional "reasoning" (m.reasoning.map .str) ++
    Json.optional "truncated" (m.truncated.map .bool) ++
    Json.optional "isError" (m.isError.map .bool) ++
    Json.optional "pending" (m.pending.map .bool) ++
    Json.optional "images" (m.images.map fun imgs => .arr (imgs.map .str)))

/-- The messages of a thread as a save sends them. -/
def sent (msgs : List ChatMsg) : List Json := (forSave msgs).map SavedMsg.toJson

/-! ## Reopening -/

def editedFile? (v : Json) : Option EditedFile :=
  match (v.get? "name").bind Json.str?, (v.get? "content").bind Json.str? with
  | some name, some content => some ⟨name, content⟩
  | _, _ => none

/-- `...(m.flag ? { flag: true } : {})`. -/
def flag? (m : Json) (key : String) : Option Bool :=
  if (m.get? key).any truthy then some true else none

/-- `fromSaved`: a stored message back in the thread. -/
def fromSaved (m : Json) : Option ChatMsg :=
  match ((m.get? "role").bind Json.str?).bind Role.ofText, (m.get? "content").bind Json.str? with
  | some role, some content =>
      some
        { role := role
          content := content
          hidden := (m.get? "hidden").bind Json.bool?
          reasoning := ((m.get? "reasoning").bind Json.str?).filter fun t => !t.isEmpty
          isError := flag? m "isError"
          truncated := flag? m "truncated"
          pending := flag? m "pending"
          images := (((m.get? "images").bind Json.arr?).map fun xs => xs.filterMap Json.str?).filter
            fun xs => !xs.isEmpty
          fileEdits := (((m.get? "fileEdits").bind Json.arr?).map fun xs =>
            xs.filterMap editedFile?).filter fun xs => !xs.isEmpty }
  | _, _ => none

/-- The thread after a save and a reload. -/
def reopened (msgs : List ChatMsg) : Option (List ChatMsg) := (kept (sent msgs)).mapM fromSaved

/-! ## The files of a thread -/

/-- A file of the conversation. -/
structure FileEntry where
  content : List Char
  lang : List Char
deriving DecidableEq, Repr

/-- A `Map` from names to files, in insertion order. -/
abbrev Files := List (List Char × FileEntry)

namespace Files

def get? (files : Files) (name : List Char) : Option FileEntry := files.lookup name

/-- `Map.set`: a known name keeps its place. -/
def set (files : Files) (name : List Char) (f : FileEntry) : Files :=
  if (files.get? name).isSome then files.map fun e => if e.1 = name then (name, f) else e
  else files ++ [(name, f)]

end Files

inductive Artifact where
  | code (title lang content : List Char)
  | doc (title content : List Char)
deriving DecidableEq, Repr

/-- An edit block of an old conversation. -/
structure FileEdit where
  file : List Char
  find : List Char
  replace : List Char
deriving DecidableEq, Repr

/-- The text analysis `filesUntil` calls. -/
structure Parsers where
  /-- the answer holds an edit or a questions block -/
  protocol : List Char → Bool
  /-- `parseArtifacts(closedContent(content), false, t, request, known).artifacts` -/
  parseArtifacts : List Char → List Char → (List Char → Option (List Char)) → List Artifact
  parseEdits : List Char → List FileEdit
  /-- `rejoin(base, continuationBody(content))` -/
  rejoin : List Char → List Char → List Char
  incompleteResponse : List Char → Bool
  isFragment : Option FileEntry → List Char → Bool
  /-- `String.prototype.replace` with a text pattern -/
  replace : List Char → List Char → List Char → List Char
  /-- `toLowerCase` of an extension -/
  toLowerCase : List Char → List Char

/-- The length of a text in JavaScript: UTF-16 units. -/
def utf16Length (t : List Char) : Nat := (t.map fun c => if c.toNat < 0x10000 then 1 else 2).sum

/-- How many code fences a text holds. -/
def fences : List Char → Nat
  | '\x60' :: '\x60' :: '\x60' :: rest => fences rest + 1
  | _ :: rest => fences rest
  | [] => 0

def RESUME_PROMPT : List Char := "Continue exactement là où tu t'es arrêté".toList

/-- `isResume`: the hidden request of the "Continuer" button. -/
def isResume : Option ChatMsg → Bool
  | none => false
  | some m => m.role = .user && m.hidden.getD false && RESUME_PROMPT.isPrefixOf m.content

def EXT_LANG : List (String × String) :=
  [("py", "python"), ("js", "javascript"), ("ts", "typescript"), ("tsx", "tsx"), ("jsx", "jsx"),
    ("html", "html"), ("css", "css"), ("json", "json"), ("md", "markdown"), ("sh", "bash"),
    ("yml", "yaml"), ("yaml", "yaml"), ("go", "go"), ("rs", "rust"), ("java", "java"), ("c", "c"),
    ("cpp", "cpp"), ("rb", "ruby"), ("php", "php"), ("sql", "sql")]

/-- `langFromName`: the language of a file from its extension. -/
def langFromName (P : Parsers) (name : List Char) : List Char :=
  let ext := P.toLowerCase ((name.splitOn '.').getLastD [])
  ((EXT_LANG.lookup (String.ofList ext)).getD "text").toList

/-- The files, and the one the last answer left open. -/
structure FilesState where
  files : Files := []
  unfinished : Option (List Char) := none
deriving DecidableEq, Repr

/-- The artifacts of one answer, in order; `last` is the rank of the last one. -/
def fileArtifact (P : Parsers) (unfinished : Option (List Char)) (last : Nat) (files : Files)
    (a : Artifact × Nat) : Files :=
  match a.1 with
  | .doc _ _ => files
  | .code title lang content =>
      -- the block the cut left open is the version being written
      if a.2 = last ∧ some title = unfinished ∧
          ((files.get? title).all fun p => utf16Length p.content ≤ 4 * utf16Length content) = true then
        files.set title ⟨content, lang⟩
      else if P.isFragment (files.get? title) content then files
      else files.set title ⟨content, lang⟩

/-- The file an edit block names, by its name or by a suffix. -/
def editKey (files : Files) (file : List Char) : Option (List Char) :=
  if (files.get? file).isSome ∧ file ≠ [] then some file
  else
    ((files.map Prod.fst).find? fun k =>
      k == file || ('/' :: file).isSuffixOf k || ('/' :: k).isSuffixOf file).filter fun k => !k.isEmpty

def applyEdit (P : Parsers) (files : Files) (e : FileEdit) : Files :=
  match editKey files e.file with
  | none => files
  | some key =>
      match files.get? key with
      | none => files
      | some target =>
          if Text.contains target.content e.find then
            files.set key { target with content := P.replace target.content e.find e.replace }
          else files

/-- A version written by the edit tools. -/
def applyFileEdit (P : Parsers) (files : Files) (f : EditedFile) : Files :=
  files.set f.name
    ⟨f.content, ((files.get? f.name).map FileEntry.lang).getD (langFromName P f.name)⟩

/-- An answer that opens its own files: artifacts, edit blocks, edited files. -/
def answerFiles (P : Parsers) (files : Files) (request : List Char) (m : ChatMsg) : FilesState :=
  let arts := P.parseArtifacts m.content request fun name => (files.get? name).map FileEntry.content
  let unfinished :=
    match arts.getLast? with
    | some (.code title _ _) => if fences m.content % 2 = 1 then some title else none
    | _ => none
  let afterArtifacts := arts.zipIdx.foldl (fileArtifact P unfinished (arts.length - 1)) files
  let afterEdits := (P.parseEdits m.content).foldl (applyEdit P) afterArtifacts
  { files := (m.fileEdits.getD []).foldl (applyFileEdit P) afterEdits, unfinished := unfinished }

/-- One message of the walk, with the message before it. -/
def filesStep (P : Parsers) (st : FilesState) (previous : Option ChatMsg) (m : ChatMsg) :
    FilesState :=
  if m.role ≠ .assistant then st
  else
    let target := (st.unfinished.filter fun n => !n.isEmpty).bind st.files.get?
    let resumes := isResume previous && !P.protocol m.content
    match resumes, target with
    -- a resume with nothing to complete
    | true, none => { st with unfinished := none }
    | true, some target =>
        let fusion := P.rejoin target.content m.content
        { files := st.files.set (st.unfinished.getD []) { target with content := fusion }
          unfinished :=
            if m.truncated.getD false || P.incompleteResponse fusion then st.unfinished else none }
    | false, _ => answerFiles P st.files ((previous.map ChatMsg.content).getD []) m

def filesWalk (P : Parsers) : FilesState → Option ChatMsg → List ChatMsg → FilesState
  | st, _, [] => st
  | st, previous, m :: rest => filesWalk P (filesStep P st previous m) (some m) rest

/-- `filesUntil`: the files up to the message at `index`. -/
def filesUntil (P : Parsers) (messages : List ChatMsg) (index : Int) : Files :=
  (filesWalk P {} none (messages.take (index + 1).toNat)).files

/-! ## What filesUntil reads -/

/-- The same message, for what a reopened thread must give back: a flag is what it
is read as, a missing text or list is an empty one. -/
structure Same (a b : ChatMsg) : Prop where
  role : a.role = b.role
  content : a.content = b.content
  hidden : a.hidden.getD false = b.hidden.getD false
  truncated : a.truncated.getD false = b.truncated.getD false
  isError : a.isError.getD false = b.isError.getD false
  pending : a.pending.getD false = b.pending.getD false
  reasoning : a.role = .assistant → a.reasoning.getD [] = b.reasoning.getD []
  fileEdits : a.fileEdits.getD [] = b.fileEdits.getD []

variable {P : Parsers} {a b : ChatMsg}

theorem isResume_congr (h : Same a b) : isResume (some a) = isResume (some b) := by
  simp only [isResume, h.role, h.content, h.hidden]

theorem filesStep_congr {st : FilesState} {p q : Option ChatMsg} (hresume : isResume p = isResume q)
    (hrequest : (p.map ChatMsg.content).getD [] = (q.map ChatMsg.content).getD [])
    (h : Same a b) : filesStep P st p a = filesStep P st q b := by
  unfold filesStep answerFiles
  rw [hresume, hrequest, h.role, h.content, h.truncated, h.fileEdits]

theorem filesWalk_congr {as bs : List ChatMsg} (h : List.Forall₂ Same as bs) {st : FilesState}
    {p q : Option ChatMsg} (hresume : isResume p = isResume q)
    (hrequest : (p.map ChatMsg.content).getD [] = (q.map ChatMsg.content).getD []) :
    filesWalk P st p as = filesWalk P st q bs := by
  induction h generalizing st p q with
  | nil => rfl
  | cons hab _ ih =>
    simp only [filesWalk]
    rw [filesStep_congr hresume hrequest hab]
    exact ih (isResume_congr hab) (by simp [hab.content])

/-- Threads with the same messages have the same files, up to any message. -/
theorem filesUntil_congr {as bs : List ChatMsg} (h : List.Forall₂ Same as bs) (index : Int) :
    filesUntil P as index = filesUntil P bs index := by
  unfold filesUntil
  rw [filesWalk_congr (List.forall₂_take _ h) rfl rfl]

/-! ## What a save sends -/

/-- A saved message carries what the message has, images aside. -/
structure Carries (m : ChatMsg) (s : SavedMsg) : Prop where
  role : s.role = m.role
  content : s.content = m.content
  hidden : s.hidden = m.hidden
  reasoning : s.reasoning = m.reasoning
  truncated : s.truncated = m.truncated
  isError : s.isError = m.isError
  pending : s.pending = m.pending

theorem carries_saved (m : ChatMsg) : Carries m m.saved := ⟨rfl, rfl, rfl, rfl, rfl, rfl, rfl⟩

theorem carries_recentImagesFrom (budget : Nat) (remaining : Option Nat) (weight : Nat)
    (msgs : List ChatMsg) :
    List.Forall₂ Carries msgs (recentImagesFrom budget remaining weight (msgs.map ChatMsg.saved)) := by
  induction msgs generalizing remaining weight with
  | nil => exact List.Forall₂.nil
  | cons m msgs ih =>
    simp only [List.map_cons, recentImagesFrom]
    split
    · exact List.Forall₂.cons (carries_saved m) (ih remaining weight)
    · exact List.Forall₂.cons ⟨rfl, rfl, rfl, rfl, rfl, rfl, rfl⟩ (ih _ _)

theorem carries_forSave (msgs : List ChatMsg) : List.Forall₂ Carries msgs (forSave msgs) := by
  unfold forSave recentImages
  have h := carries_recentImagesFrom IMAGES_SAVE_BUDGET none 0 msgs.reverse
  rw [← List.map_reverse] at *
  have hrev := List.forall₂_reverse_iff.2 h
  rwa [List.reverse_reverse] at hrev

/-! ## What the server keeps and the page reads -/

/-- What comes back of a saved message. -/
structure Back (s : SavedMsg) (c : ChatMsg) : Prop where
  role : c.role = s.role
  content : c.content = s.content.take MSG_MAX_CHARS
  hidden : c.hidden.getD false = s.hidden.getD false
  truncated : c.truncated.getD false = s.truncated.getD false
  isError : c.isError.getD false = s.isError.getD false
  pending : c.pending.getD false = s.pending.getD false
  reasoning : s.role = .assistant →
    c.reasoning.getD [] = (s.reasoning.getD []).take MSG_MAX_CHARS
  fileEdits : c.fileEdits = none

theorem get?_toJson (s : SavedMsg) :
    s.toJson.get? "role" = some (.str s.role.text) ∧
    s.toJson.get? "content" = some (.str s.content) ∧
    s.toJson.get? "hidden" = s.hidden.map .bool ∧
    s.toJson.get? "reasoning" = s.reasoning.map .str ∧
    s.toJson.get? "truncated" = s.truncated.map .bool ∧
    s.toJson.get? "isError" = s.isError.map .bool ∧
    s.toJson.get? "pending" = s.pending.map .bool ∧
    s.toJson.get? "fileEdits" = none := by
  simp [SavedMsg.toJson, List.lookup_append, List.lookup_cons, Json.lookup_optional_ne]

/-- A flag as the server stores it. -/
def storedFlag (b : Option Bool) : Option Json := if b.getD false then some (.bool true) else none

theorem any_truthy_map_bool (b : Option Bool) :
    ((b.map Json.bool).any truthy) = b.getD false := by
  rcases b with _ | b
  · rfl
  · simp [truthy]

theorem bind_bool?_storedFlag (b : Option Bool) :
    ((storedFlag b).bind Json.bool?).getD false = b.getD false := by
  unfold storedFlag
  cases b.getD false <;> rfl

theorem any_truthy_storedFlag (b : Option Bool) : (storedFlag b).any truthy = b.getD false := by
  unfold storedFlag
  cases b.getD false <;> rfl

theorem flagFields_toJson (s : SavedMsg) :
    flagFields s.toJson = Json.optional "hidden" (storedFlag s.hidden) ++
      Json.optional "isError" (storedFlag s.isError) ++
      Json.optional "truncated" (storedFlag s.truncated) ++
      Json.optional "pending" (storedFlag s.pending) := by
  obtain ⟨-, -, hhidden, -, htruncated, herror, hpending, -⟩ := get?_toJson s
  simp only [flagFields, List.flatMap_cons, List.flatMap_nil, hhidden, htruncated, herror, hpending,
    any_truthy_map_bool, storedFlag, List.append_nil, List.append_assoc]

/-- The stored reasoning of a message: none when it is empty. -/
def storedReasoning (s : SavedMsg) : Option Json :=
  let t := (s.reasoning.getD []).take MSG_MAX_CHARS
  if t.isEmpty then none else some (.str t)

theorem assistantFields_toJson (s : SavedMsg) :
    assistantFields s.toJson = Json.optional "reasoning" (storedReasoning s) := by
  obtain ⟨-, -, -, hreasoning, -, -, -, hedits⟩ := get?_toJson s
  have htext : pyStr (s.reasoning.map Json.str) = s.reasoning.getD [] := by
    rcases s.reasoning with _ | t <;> rfl
  simp only [assistantFields, hreasoning, hedits, htext, parseFiles, storedReasoning]
  simp [Json.optional]

theorem storedMessage_toJson (s : SavedMsg) :
    storedMessage s.toJson =
      some (.obj ([("role", .str s.role.text), ("content", .str (s.content.take MSG_MAX_CHARS))] ++
        flagFields s.toJson ++
        if s.role = .assistant then assistantFields s.toJson else userFields s.toJson)) := by
  obtain ⟨hrole, hcontent, -⟩ := get?_toJson s
  have hcases : s.role.text = "user".toList ∨ s.role = .assistant := by
    cases s.role
    · exact Or.inl rfl
    · exact Or.inr rfl
  have hassistant : s.role.text = "assistant".toList ↔ s.role = .assistant := by
    cases s.role <;> decide
  show (if ((s.toJson.get? "role").bind Json.str?).getD [] = "user".toList ∨
      ((s.toJson.get? "role").bind Json.str?).getD [] = "assistant".toList then _ else none) = _
  simp only [hrole, hcontent, Option.bind_some, Json.str?_str, Option.getD_some, pyStr, hassistant]
  rw [if_pos hcases]

theorem ofText_text (r : Role) : Role.ofText r.text = some r := by
  cases r <;> rfl

theorem bind_str?_storedReasoning (s : SavedMsg) :
    (((storedReasoning s).bind Json.str?).filter fun t => !t.isEmpty).getD [] =
      (s.reasoning.getD []).take MSG_MAX_CHARS := by
  unfold storedReasoning
  generalize (s.reasoning.getD []).take MSG_MAX_CHARS = t
  cases t <;> rfl

theorem getD_flag {b : Bool} : (if b then some true else none : Option Bool).getD false = b := by
  cases b <;> rfl

theorem get?_stored {s : SavedMsg} {item : Json} (h : storedMessage s.toJson = some item) :
    item.get? "role" = some (.str s.role.text) ∧
    item.get? "content" = some (.str (s.content.take MSG_MAX_CHARS)) ∧
    item.get? "hidden" = storedFlag s.hidden ∧
    item.get? "isError" = storedFlag s.isError ∧
    item.get? "truncated" = storedFlag s.truncated ∧
    item.get? "pending" = storedFlag s.pending ∧
    (s.role = .assistant → item.get? "reasoning" = storedReasoning s) ∧
    item.get? "fileEdits" = none := by
  rw [storedMessage_toJson] at h
  obtain rfl := Option.some.inj h
  rw [flagFields_toJson]
  by_cases hr : s.role = .assistant
  · rw [if_pos hr, assistantFields_toJson]
    simp [List.lookup_append, List.lookup_cons, Json.lookup_optional_ne]
  · rw [if_neg hr]
    simp [List.lookup_append, List.lookup_cons, Json.lookup_optional_ne, hr, userFields]

theorem back_of_stored {s : SavedMsg} {item : Json} (h : storedMessage s.toJson = some item) :
    ∃ c, fromSaved item = some c ∧ Back s c := by
  obtain ⟨hrole, hcontent, hhidden, herror, htruncated, hpending, hreasoning, hedits⟩ := get?_stored h
  unfold fromSaved flag?
  simp only [hrole, hcontent, hhidden, herror, htruncated, hpending, hedits, Option.bind_some,
    Json.str?_str, ofText_text, any_truthy_storedFlag]
  refine ⟨_, rfl, ?_⟩
  constructor
  · rfl
  · rfl
  · exact bind_bool?_storedFlag s.hidden
  · exact getD_flag
  · exact getD_flag
  · exact getD_flag
  · intro hr
    rw [hreasoning hr]
    exact bind_str?_storedReasoning s
  · rfl

theorem back_stored (ss : List SavedMsg) :
    ∃ items r, (ss.map SavedMsg.toJson).filterMap storedMessage = items ∧
      items.length = ss.length ∧ items.mapM fromSaved = some r ∧ List.Forall₂ Back ss r := by
  induction ss with
  | nil => exact ⟨[], [], rfl, rfl, rfl, List.Forall₂.nil⟩
  | cons s ss ih =>
    obtain ⟨items, r, hitems, hlen, hr, hback⟩ := ih
    obtain ⟨item, hs⟩ : ∃ item, storedMessage s.toJson = some item := ⟨_, storedMessage_toJson s⟩
    obtain ⟨c, hc, hsc⟩ := back_of_stored hs
    refine ⟨item :: items, c :: r, ?_, ?_, ?_, List.Forall₂.cons hsc hback⟩
    · rw [List.map_cons, List.filterMap_cons_some hs, hitems]
    · rw [List.length_cons, List.length_cons, hlen]
    · rw [List.mapM_cons, hc, hr]
      rfl

theorem back_kept {ss : List SavedMsg} (hcount : ss.length ≤ 60)
    (hsize : dumpedLength (storedMessages (ss.map SavedMsg.toJson)) ≤ CONV_MAX_CHARS) :
    ∃ r, (kept (ss.map SavedMsg.toJson)).mapM fromSaved = some r ∧ List.Forall₂ Back ss r := by
  obtain ⟨items, r, hitems, hlen, hr, hback⟩ := back_stored ss
  have hstored : storedMessages (ss.map SavedMsg.toJson) = items := by
    have hskip : items.length - 60 = 0 := by omega
    unfold storedMessages
    rw [hitems]
    dsimp only
    rw [hskip, List.drop_zero]
  refine ⟨r, ?_, hback⟩
  unfold kept
  rw [trimToBudget_of_le hsize, hstored]
  exact hr

/-! ## The round trip -/

/-- A thread within the server's limits. -/
structure Within (msgs : List ChatMsg) : Prop where
  count : msgs.length ≤ 60
  content : ∀ m ∈ msgs, m.content.length ≤ MSG_MAX_CHARS
  reasoning : ∀ m ∈ msgs, (m.reasoning.getD []).length ≤ MSG_MAX_CHARS
  size : dumpedLength (storedMessages (sent msgs)) ≤ CONV_MAX_CHARS

/-- The thread comes back with the same messages, and with the same files up to
any of them. -/
def ReopensAsItself (P : Parsers) (msgs : List ChatMsg) : Prop :=
  ∃ r, reopened msgs = some r ∧ List.Forall₂ Same msgs r ∧
    ∀ k, filesUntil P r k = filesUntil P msgs k

theorem same_of_back {m c : ChatMsg} {s : SavedMsg} (hs : Carries m s) (hc : Back s c)
    (hcontent : m.content.length ≤ MSG_MAX_CHARS)
    (hreasoning : (m.reasoning.getD []).length ≤ MSG_MAX_CHARS)
    (hedits : m.fileEdits.getD [] = []) : Same m c := by
  constructor
  · rw [hc.role, hs.role]
  · rw [hc.content, hs.content, List.take_of_length_le hcontent]
  · rw [hc.hidden, hs.hidden]
  · rw [hc.truncated, hs.truncated]
  · rw [hc.isError, hs.isError]
  · rw [hc.pending, hs.pending]
  · intro hr
    rw [hc.reasoning (hs.role.trans hr), hs.reasoning, List.take_of_length_le hreasoning]
  · rw [hc.fileEdits, hedits]
    rfl

theorem same_of_forall₂_back {msgs r : List ChatMsg} {ss : List SavedMsg}
    (hs : List.Forall₂ Carries msgs ss) (hr : List.Forall₂ Back ss r)
    (hcontent : ∀ m ∈ msgs, m.content.length ≤ MSG_MAX_CHARS)
    (hreasoning : ∀ m ∈ msgs, (m.reasoning.getD []).length ≤ MSG_MAX_CHARS)
    (hedits : ∀ m ∈ msgs, m.fileEdits.getD [] = []) : List.Forall₂ Same msgs r := by
  induction hs generalizing r with
  | nil =>
    cases hr
    exact List.Forall₂.nil
  | cons hms _ ih =>
    rcases hr with _ | ⟨hsc, hrest⟩
    rw [List.forall_mem_cons] at hcontent hreasoning hedits
    exact List.Forall₂.cons (same_of_back hms hsc hcontent.1 hreasoning.1 hedits.1)
      (ih hrest hcontent.2 hreasoning.2 hedits.2)

/-- No edited file comes back, so a thread that comes back has none. -/
theorem fileEdits_of_same {msgs r : List ChatMsg} {ss : List SavedMsg}
    (hsame : List.Forall₂ Same msgs r) (hr : List.Forall₂ Back ss r) :
    ∀ m ∈ msgs, m.fileEdits.getD [] = [] := by
  induction hsame generalizing ss with
  | nil => simp
  | cons hmc _ ih =>
    rcases hr with _ | ⟨hsc, hrest⟩
    rw [List.forall_mem_cons]
    refine ⟨?_, ih hrest⟩
    rw [hmc.fileEdits, hsc.fileEdits]
    rfl

theorem back_reopened {msgs : List ChatMsg} (h : Within msgs) :
    ∃ r, reopened msgs = some r ∧ List.Forall₂ Back (forSave msgs) r := by
  refine back_kept ?_ h.size
  rw [← (carries_forSave msgs).length_eq]
  exact h.count

theorem fileEdits_of_reopens {P : Parsers} {msgs : List ChatMsg} (h : Within msgs)
    (hre : ReopensAsItself P msgs) : ∀ m ∈ msgs, m.fileEdits.getD [] = [] := by
  obtain ⟨r, hr, hback⟩ := back_reopened h
  obtain ⟨r', hr', hsame, -⟩ := hre
  obtain rfl : r = r' := Option.some.inj (hr.symm.trans hr')
  exact fileEdits_of_same hsame hback

/-- A thread within the limits reopens as itself exactly when none of its messages
carries an edited file. -/
theorem reopensAsItself_iff (P : Parsers) (msgs : List ChatMsg) (h : Within msgs) :
    ReopensAsItself P msgs ↔ ∀ m ∈ msgs, m.fileEdits.getD [] = [] := by
  refine ⟨fileEdits_of_reopens h, ?_⟩
  intro hedits
  obtain ⟨r, hr, hback⟩ := back_reopened h
  have hsame := same_of_forall₂_back (carries_forSave msgs) hback h.content h.reasoning hedits
  exact ⟨r, hr, hsame, fun k => (filesUntil_congr hsame k).symm⟩

/-- The text analysis on answers without a code block. -/
def noBlocks : Parsers where
  protocol := fun _ => false
  parseArtifacts := fun _ _ _ => []
  parseEdits := fun _ => []
  rejoin := fun base continuation => base ++ continuation
  incompleteResponse := fun _ => false
  isFragment := fun _ _ => false
  replace := fun t _ _ => t
  toLowerCase := fun t => t

/-- A finished exchange without files. -/
def plainThread : List ChatMsg :=
  [⟨.user, "Bonjour".toList, none, none, none, none, none, none, none⟩,
    ⟨.assistant, "Bonjour !".toList, some "salut".toList, some false, none, none, some false, none, none⟩]

theorem plainThread_reopens :
    Within plainThread ∧ ReopensAsItself noBlocks plainThread := by
  have h : Within plainThread :=
    ⟨by decide +kernel, by decide +kernel, by decide +kernel, by decide +kernel⟩
  exact ⟨h, (reopensAsItself_iff noBlocks plainThread h).2 (by decide +kernel)⟩

/-- An answer whose edit tool rewrote a file. -/
def editedThread : List ChatMsg :=
  [⟨.user, "Ajoute l'heure à hello.py".toList, none, none, none, none, none, none, none⟩,
    ⟨.assistant, "C'est fait.".toList, none, none, none, none, none, none,
      some [⟨"hello.py".toList, "print(2)".toList⟩]⟩]

/-- Reopened, the file the tool wrote is gone. -/
theorem editedThread_lost :
    Within editedThread ∧ ¬ ReopensAsItself noBlocks editedThread ∧
      (reopened editedThread).map (fun r => filesUntil noBlocks r 1) = some [] ∧
      filesUntil noBlocks editedThread 1 =
        [("hello.py".toList, ⟨"print(2)".toList, "python".toList⟩)] := by
  have h : Within editedThread :=
    ⟨by decide +kernel, by decide +kernel, by decide +kernel, by decide +kernel⟩
  refine ⟨h, ?_, by decide +kernel, by decide +kernel⟩
  intro hre
  exact absurd (fileEdits_of_reopens h hre) (by decide +kernel)

end Portal.Playground
