import DgxPlatform.Runner.DeleteFiles
import DgxPlatform.Runner.ValidateArgs

/-! # A launch and its replay

`launch` reads a request, checks it and hands four arguments to `start_process`,
which builds a command and writes the arguments to the state file. When the
engine ends on its own, the watchdog reads the file and calls `start_process`
itself, after a validation of its own and without the trims and the lower case
of `launch`.

`resume_replays`: the two calls have the same arguments.
-/

namespace Runner.Launching

open Args Text

/-! ## The request -/

/-- The arguments of `start_process`. -/
structure StartArgs where
  hfId : List Char
  name : List Char
  extra : List (List Char)
  engine : List Char
deriving DecidableEq, Repr

/-- A text field of a JSON object. -/
def field (data : Json) (key : String) : Option (List Char) := (data.get? key).bind Json.str?

def ENGINES : List (List Char) :=
  ["vllm", "llamacpp", "ds4", "exllamav3", "vllm-docker"].map String.toList

def requestId (data : Json) : List Char := trim ((field data "hf_model_id").getD [])

def requestName (data : Json) : List Char :=
  trim ((field data "model_name").getD (requestId data))

def requestArgs (data : Json) : List Char := trim ((field data "vllm_args").getD [])

def requestEngine (L : Lowercase) (data : Json) : List Char :=
  L.lower (trim (((field data "engine").filter (· ≠ [])).getD "vllm".toList))

/-- The ids that `launch` lets through: of one of the three shapes, without a `..`
component. -/
def acceptsId (hfId : List Char) : Bool :=
  decide (hfId ≠ []) && modelIdShapeOk (String.ofList hfId)
    && !(hfId.splitOn '/').contains "..".toList

/-- The checks of `launch`, with the text of a refusal (all of them are answered with the
code 400). `installed` says whether the binary of an engine exists. -/
def launchRequest (L : Lowercase) (installed : List Char → Bool) (data : Json) :
    Except (List Char) StartArgs :=
  let hfId := requestId data
  let engine := requestEngine L data
  if hfId = [] then .error "hf_model_id required".toList
  else if ¬ modelIdShapeOk (String.ofList hfId) then .error "invalid hf_model_id".toList
  else if (hfId.splitOn '/').contains "..".toList then
    .error "invalid hf_model_id (.. refused)".toList
  else if engine ∉ ENGINES then .error ("unknown engine: ".toList ++ engine)
  else if engine ≠ "vllm".toList ∧ ¬ installed engine then
    .error ("engine ".toList ++ engine ++ " not installed on this machine".toList)
  else
    match validateArgs (requestArgs data) engine hfId with
    | .ok tokens => .ok ⟨hfId, requestName data, tokens, engine⟩
    | .error e => .error e

/-! ## The state file -/

/-- `serde_json`: a value as text and back. -/
structure JsonText where
  write : Json → List Char
  read : List Char → Option Json

/-- The body of `save_last_launch`. -/
def lastLaunch (r : StartArgs) : Json :=
  .obj [("hf_model_id", .str r.hfId), ("model_name", .str r.name),
    ("vllm_args", .str ([' '].intercalate r.extra)), ("engine", .str r.engine)]

/-- `save_last_launch`: what the file holds. -/
def saveLastLaunch (J : JsonText) (r : StartArgs) : List Char := J.write (lastLaunch r)

/-- `load_last_launch`, of the text of the file if there is one. -/
def loadLastLaunch (J : JsonText) (file : Option (List Char)) : Option Json := file.bind J.read

/-! ## `start_process` -/

/-- The arguments of `build_cmd`. -/
structure BuildArgs where
  hfId : List Char
  name : List Char
  extra : List (List Char)
  engine : List Char
  binOverride : Option (List Char)
deriving DecidableEq, Repr

/-- What `start_process` builds its command from, and what it writes to the file once the
engine is started: the tokens without the pseudo-flags, and the tokens as they came. -/
def startProcess (getenv : List Char → Option (List Char)) (J : JsonText) (r : StartArgs) :
    BuildArgs × List Char :=
  let stripped := stripPseudo getenv r.extra
  (⟨r.hfId, r.name, stripped.tokens, r.engine, stripped.binOverride⟩, saveLastLaunch J r)

/-! ## The watchdog -/

/-- The fields that the watchdog takes from the record, and their validation. -/
def watchdogArgs (last : Json) : Except (List Char) StartArgs :=
  let engine := (field last "engine").getD "vllm".toList
  let hfId := (field last "hf_model_id").getD []
  match validateArgs ((field last "vllm_args").getD []) engine hfId with
  | .ok tokens => .ok ⟨hfId, (field last "model_name").getD [], tokens, engine⟩
  | .error e => .error e

/-! ## The replay -/

variable {L : Lowercase} {installed : List Char → Bool} {data : Json} {r : StartArgs}

/-- Everything that an accepted request has passed. -/
structure Accepted (r : StartArgs) : Prop where
  id : acceptsId r.hfId = true
  engine : r.engine ∈ ENGINES
  args : ∃ extra, validateArgs extra r.engine r.hfId = .ok r.extra

theorem accepted_of_launchRequest (h : launchRequest L installed data = .ok r) : Accepted r := by
  unfold launchRequest at h
  dsimp only at h
  split_ifs at h with hid hshape hdots hengine hbin
  split at h
  · next tokens hargs =>
      cases h
      have hid' : acceptsId (requestId data) = true := by
        simp only [acceptsId, Bool.and_eq_true, Bool.not_eq_true', decide_eq_true_eq]
        exact ⟨⟨hid, hshape⟩, Bool.eq_false_iff.2 hdots⟩
      exact ⟨hid', hengine, _, hargs⟩
  · cases h

/-- Joined by blanks and split again, accepted tokens are accepted as they were. -/
theorem validateArgs_join {extra engine hfId : List Char} {tokens : List (List Char)}
    (h : validateArgs extra engine hfId = .ok tokens) :
    validateArgs ([' '].intercalate tokens) engine hfId = .ok tokens := by
  obtain ⟨rfl, items, hitems⟩ := validateArgs_eq_ok.1 h
  rw [validateArgs_eq_ok]
  refine ⟨?_, items, hitems⟩
  have htokens : ∀ t ∈ splitWhitespace extra, IsToken t := fun t ht => isToken_of_mem ht
  exact (splitWhitespace_join htokens).symm

theorem watchdogArgs_lastLaunch (h : Accepted r) : watchdogArgs (lastLaunch r) = .ok r := by
  obtain ⟨extra, hargs⟩ := h.args
  have hjoin := validateArgs_join hargs
  simp [watchdogArgs, field, lastLaunch, Json.get?, List.lookup_cons, hjoin]

/-- The record of a launch, read back by the watchdog, is the launch: what it hands to
`start_process` is what `launch` handed to it, so the command is built from the same arguments
and the same record is written again. -/
theorem resume_replays (L : Lowercase) (installed : List Char → Bool)
    (getenv : List Char → Option (List Char)) (J : JsonText) (data : Json) (r : StartArgs)
    (h : launchRequest L installed data = .ok r)
    (hjson : J.read (J.write (lastLaunch r)) = some (lastLaunch r)) :
    (loadLastLaunch J (some (startProcess getenv J r).2)).map watchdogArgs = some (.ok r) ∧
      (loadLastLaunch J (some (startProcess getenv J r).2)).map
          (fun last => (watchdogArgs last).map (startProcess getenv J)) =
        some (.ok (startProcess getenv J r)) := by
  have hload : loadLastLaunch J (some (startProcess getenv J r).2) = some (lastLaunch r) := hjson
  have hargs := watchdogArgs_lastLaunch (accepted_of_launchRequest h)
  rw [hload]
  constructor
  · rw [Option.map_some, hargs]
  · rw [Option.map_some, hargs]
    rfl

/-- Blanks around and between, capitals, and a pseudo-flag. -/
def spacedRequest : Json :=
  .obj [("hf_model_id", .str " org/a ".toList),
    ("vllm_args", .str " --dtype  half\t--force-fp8-marlin".toList), ("engine", .str "VLLM".toList)]

def spacedStart : StartArgs :=
  ⟨"org/a".toList, "org/a".toList, ["--dtype", "half", "--force-fp8-marlin"].map String.toList,
    "vllm".toList⟩

def spacedRecord : List Char :=
  ("\x7b\"engine\":\"vllm\",\"hf_model_id\":\"org/a\",\"model_name\":\"org/a\"," ++
    "\"vllm_args\":\"--dtype half --force-fp8-marlin\"\x7d").toList

/-- The text of that record, and the record of that text. -/
def spacedText : JsonText where
  write _ := spacedRecord
  read t := if t = spacedRecord then some (lastLaunch spacedStart) else none

theorem resume_replays_spaced :
    (loadLastLaunch spacedText (some (startProcess (fun _ => none) spacedText spacedStart).2)).map
        watchdogArgs = some (.ok spacedStart) :=
  (resume_replays asciiLowercase (fun _ => true) (fun _ => none) spacedText spacedRequest spacedStart
    (by decide +kernel) (by simp [spacedText])).1

end Runner.Launching
