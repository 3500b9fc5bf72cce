import DgxPlatform.Lib.Text
import Mathlib.Algebra.GroupWithZero.Nat
import Mathlib.Algebra.Order.Group.Nat
import Mathlib.Data.List.Nodup

/-! # The tool phase of the playground

`phase::run` asks the model, round after round, which tools to call, and sends each time
the short conversation with the calls and the results so far. `boundToolsPrompt` drops
the oldest rounds past the cap, after every single result.

`run` gives the decision requests of a phase, for every context, every sequence of
answers, every tool result and every clock. All of them are well formed (`WellFormed`)
exactly when each round that another request follows has at most four calls and fits
under the cap together with the context (`requests_wellFormed_iff`).
-/

namespace Portal.Phase

/-! ## Messages -/

inductive Role where
  | system
  | user
  | assistant
deriving DecidableEq, Repr

/-- The content of a model's answer: a text (empty when it is falsy), or another JSON
value, given by its `py_str`. -/
inductive Content where
  | text (t : List Char)
  | value (repr : List Char)
deriving DecidableEq, Repr

def Content.shown : Content → List Char
  | .text t => t
  | .value repr => repr

/-- An announced call: its id ("" when it has none) and the function's name. The
arguments only reach the tool. -/
structure Call (Id : Type) where
  id : Id
  name : List Char
deriving DecidableEq, Repr

inductive Message (Id : Type) where
  | plain (role : Role) (content : List Char)
  | calls (content : Content) (toolCalls : List (Call Id))
  | tool (toolCallId : Id) (name content : List Char)
deriving DecidableEq, Repr

variable {Id : Type}

namespace Message

/-- `content_len`. -/
def contentLen : Message Id → Nat
  | plain _ content => content.length
  | calls content _ => content.shown.length
  | tool _ _ content => content.length

/-- An assistant message with a truthy `tool_calls`. -/
def isRound : Message Id → Bool
  | calls _ toolCalls => !toolCalls.isEmpty
  | _ => false

def isTool : Message Id → Bool
  | tool _ _ _ => true
  | _ => false

def isPlain : Message Id → Bool
  | plain _ _ => true
  | _ => false

/-- The message answers the call `id`. -/
def answers [DecidableEq Id] (id : Id) : Message Id → Bool
  | tool toolCallId _ _ => decide (toolCallId = id)
  | _ => false

end Message

/-- The content length of a list. -/
def total (short : List (Message Id)) : Nat := (short.map Message.contentLen).sum

/-! ## The context -/

def TOOLS_MSG_MAX : Nat := 1500
def TOOLS_TOTAL_MAX : Nat := 8000
def TOOLS_LAST : Nat := 6
def TOOLS_RESULT_PROMPT : Nat := 6000
def TOOLS_PROMPT_MAX : Nat := 40000
def FILE_TOOL_RESULT_MAX : Nat := 40000
def MAX_TOOL_ROUNDS : Nat := 3
def FILE_TOOL_ROUNDS : Nat := 10

/-- `FILE_TOOLS_MAX_DELAY`, in nanoseconds. -/
def FILE_TOOLS_MAX_DELAY : Nat := 300000000000

/-- `TOOLS_MAX_DELAY`, in nanoseconds. -/
def TOOLS_MAX_DELAY : Nat := 60000000000

/-- The start and the end of a long message. -/
def shorten (content : List Char) : List Char :=
  if TOOLS_MSG_MAX < content.length then
    content.take (TOOLS_MSG_MAX / 2) ++ "\n…\n".toList
      ++ content.drop (content.length - TOOLS_MSG_MAX / 2)
  else content

/-- The loop of `tools_context`, from the last message backwards. -/
def collect : List (Role × List Char) → Nat → Bool → List (Message Id)
  | [], _, _ => []
  | (role, content) :: rest, sum, started =>
      let c := shorten content
      if started ∧ TOOLS_TOTAL_MAX < sum + c.length then []
      else .plain role c :: collect rest (sum + c.length) true

/-- `tools_context`. -/
def toolsContext (msgs : List (Role × List Char)) : List (Message Id) :=
  let system := (msgs.take 1).filter fun m => m.1 = .system
  let rest := msgs.drop system.length
  let last := rest.drop (rest.length - TOOLS_LAST)
  system.map (fun m => .plain m.1 (m.2.take TOOLS_MSG_MAX)) ++ (collect last.reverse 0 false).reverse

/-- The listing of `files_note`: each file with its number of lines. -/
def listing (files : List (List Char × List Char)) : List Char :=
  ", ".toList.intercalate (files.map fun f =>
    f.1 ++ " (".toList ++ Nat.toDigits 10 (f.2.count '\n' + 1) ++ " lines)".toList)

/-- `files_note`. -/
def filesNote (files : List (List Char × List Char)) : List Char :=
  "Files of this conversation (current versions): ".toList ++ listing files ++
    (". The user is asking for a change: APPLY it now with the file tools — str_replace "
      ++ "(exact, unique old_str) for each modification, view_file first if you need the "
      ++ "current text, create_file only for a NEW file. This overrides any instruction to "
      ++ "output a file complete: never rewrite a whole file for a localized change. When "
      ++ "every change is applied, answer with a short summary.").toList

/-- The note goes into the system message, or becomes one. -/
def withNote (note : List Char) : List (Message Id) → List (Message Id)
  | .plain .system c :: rest => .plain .system (c ++ "\n\n".toList ++ note) :: rest
  | short => .plain .system note :: short

/-- `Armed`, as far as the requests depend on it: which tools there are, the
conversation's files, whether there are skills. -/
structure Armed where
  web : Bool
  image : Bool
  video : Bool
  document : Bool
  history : Bool
  skills : Bool
  files : List (List Char × List Char)

/-- `edit_ok`. -/
def Armed.editOk (armed : Armed) : Bool := !armed.files.isEmpty

/-- The phase has a tool to offer. -/
def Armed.any (armed : Armed) : Bool :=
  armed.web || armed.image || armed.video || armed.document || armed.editOk || armed.skills
    || armed.history

/-- The messages before the first round. -/
def context (armed : Armed) (msgs : List (Role × List Char)) : List (Message Id) :=
  if armed.editOk then withNote (filesNote armed.files) (toolsContext msgs) else toolsContext msgs

/-! ## The cap -/

/-- The first round goes, with the tool messages right after it. -/
def dropOldest : List (Message Id) → Option (List (Message Id))
  | [] => none
  | m :: rest =>
      if m.isRound then some (rest.dropWhile Message.isTool)
      else (dropOldest rest).map (m :: ·)

/-- The loop of `bound_tools_prompt`, `fuel` times at most. -/
def boundRounds : Nat → List (Message Id) → List (Message Id)
  | 0, short => short
  | fuel + 1, short =>
      if total short ≤ TOOLS_PROMPT_MAX then short
      else
        match dropOldest short with
        | none => short
        | some rest => boundRounds fuel rest

/-- `bound_tools_prompt`: each turn of its loop drops a message at least. -/
def boundToolsPrompt (short : List (Message Id)) : List (Message Id) :=
  boundRounds short.length short

/-! ## The rounds -/

/-- How a call is carried out. -/
inductive Route where
  | history
  | skill
  | file
  | media
  | web
deriving DecidableEq, Repr

/-- `FILE_TOOL_NAMES`. -/
def FILE_TOOL_NAMES : List (List Char) :=
  ["view_file".toList, "str_replace".toList, "create_file".toList]

def Armed.route (armed : Armed) (name : List Char) : Route :=
  if armed.history ∧ (name = "search_conversations".toList ∨ name = "recent_conversations".toList)
  then .history
  else if armed.skills ∧ (name = "use_skill".toList ∨ name = "read_skill_file".toList) then .skill
  else if armed.editOk ∧ name ∈ FILE_TOOL_NAMES then .file
  else if name = "generate_image".toList ∨ name = "generate_video".toList
      ∨ name = "lire_document".toList then .media
  else .web

/-- What the tool message shows of the result. -/
def Route.shown (route : Route) (result : List Char) : List Char :=
  match route with
  | .history => result
  | .skill => result.take FILE_TOOL_RESULT_MAX
  | .file => result.take FILE_TOOL_RESULT_MAX
  | .media => result.take TOOLS_RESULT_PROMPT
  | .web => result.take TOOLS_RESULT_PROMPT

/-- What happens around a call: the time before it, the time it takes, its result. -/
structure CallInput where
  wait : Nat
  work : Nat
  result : List Char

/-- An answer of the model; without calls it ends the phase. -/
structure Answer (Id : Type) where
  content : Content
  toolCalls : List (Call Id)

/-- What happens in a round: the time before the request, the time it takes, the answer
if there is a readable one, and the calls. -/
structure RoundInput (Id : Type) where
  wait : Nat
  work : Nat
  answer : Option (Answer Id)
  steps : Nat → CallInput

/-- `end` and `short`, and the clock. -/
structure Progress (Id : Type) where
  now : Nat
  deadline : Nat
  short : List (Message Id)

/-- The tool message of a call. -/
def toolMsg (armed : Armed) (c : Call Id) (input : CallInput) : Message Id :=
  .tool c.id c.name ((armed.route c.name).shown input.result)

/-- A call is carried out; a media tool moves the deadline. -/
def answerOne (armed : Armed) (p : Progress Id) (c : Call Id) (input : CallInput) : Progress Id :=
  let now := p.now + input.work
  { now
    deadline := if armed.route c.name = .media then max p.deadline (now + TOOLS_MAX_DELAY)
      else p.deadline
    short := boundToolsPrompt (p.short ++ [toolMsg armed c input]) }

/-- The loop over the calls of an answer, until the deadline. -/
def answerCalls (armed : Armed) : List (Call Id) → (Nat → CallInput) → Progress Id → Progress Id
  | [], _, p => p
  | c :: cs, steps, p =>
      let now := p.now + (steps 0).wait
      if p.deadline < now then { p with now }
      else answerCalls armed cs (fun i => steps (i + 1)) (answerOne armed { p with now } c (steps 0))

/-- The tool messages of the calls. -/
def toolMsgs (armed : Armed) : List (Call Id) → (Nat → CallInput) → List (Message Id)
  | [], _ => []
  | c :: cs, steps => toolMsg armed c (steps 0) :: toolMsgs armed cs fun i => steps (i + 1)

/-- A round: what the model has answered, and the tool messages for it. -/
structure Round (Id : Type) where
  answer : Answer Id
  tools : List (Message Id)

/-- The message that announces the calls. -/
def Answer.announced (a : Answer Id) : Message Id := .calls a.content a.toolCalls

def Round.msgs (r : Round Id) : List (Message Id) := r.answer.announced :: r.tools

/-- Only the first four calls are carried out. -/
def Answer.round (armed : Armed) (a : Answer Id) (steps : Nat → CallInput) : Round Id :=
  ⟨a, toolMsgs armed (a.toolCalls.take 4) steps⟩

/-- A decision request: the messages sent, and the round before it. -/
structure Request (Id : Type) where
  short : List (Message Id)
  last : Option (Round Id)

/-- The requests of the loop over the rounds. -/
def runRounds (armed : Armed) :
    Nat → (Nat → RoundInput Id) → Progress Id → Option (Round Id) → List (Request Id)
  | 0, _, _, _ => []
  | n + 1, inputs, p, last =>
      let input := inputs 0
      let now := p.now + input.wait
      if p.deadline < now then []
      else ⟨p.short, last⟩ ::
        match input.answer with
        | none => []
        | some a =>
            if a.toolCalls.isEmpty then []
            else
              let asked := { p with now := now + input.work, short := p.short ++ [a.announced] }
              runRounds armed n (fun i => inputs (i + 1))
                (answerCalls armed (a.toolCalls.take 4) input.steps asked)
                (some (a.round armed input.steps))

/-- `run`: the decision requests of a phase that starts at `now`. -/
def run (armed : Armed) (msgs : List (Role × List Char)) (now : Nat)
    (inputs : Nat → RoundInput Id) : List (Request Id) :=
  if armed.any then
    runRounds armed (if armed.editOk then FILE_TOOL_ROUNDS else MAX_TOOL_ROUNDS) inputs
      ⟨now, now + (if armed.editOk then FILE_TOOLS_MAX_DELAY else TOOLS_MAX_DELAY),
        context armed msgs⟩ none
  else []

/-! ## Well-formed requests -/

section WellFormed

variable [DecidableEq Id]

/-- Read from the left, `calls` being the calls of the assistant message that the current
run of tool messages directly follows: a tool message answers one of them, and the run
after an assistant message answers each of its calls once. -/
def Answered : Option (List (Call Id)) → List (Message Id) → Prop
  | _, [] => True
  | _, .plain _ _ :: rest => Answered none rest
  | _, .calls _ toolCalls :: rest =>
      (∀ c ∈ toolCalls, (rest.takeWhile Message.isTool).countP (Message.answers c.id) = 1) ∧
        Answered (some toolCalls) rest
  | calls, .tool id _ _ :: rest => (∃ cs, calls = some cs ∧ ∃ c ∈ cs, c.id = id) ∧ Answered calls rest

/-- A well-formed tool conversation: the tool messages answer the announced calls, the
most recent round is there, and the list is under the cap or has that round alone. -/
structure WellFormed (r : Request Id) : Prop where
  answered : Answered none r.short
  present : ∀ last ∈ r.last, last.answer.announced ∈ r.short
  bounded : total r.short ≤ TOOLS_PROMPT_MAX ∨ r.short.countP Message.isRound ≤ 1

/-- The round has no call beyond the fourth, and fits under the cap with the context. -/
def Round.Fits (base : List (Message Id)) (r : Round Id) : Prop :=
  r.answer.toolCalls.length ≤ 4 ∧ total (base ++ r.msgs) ≤ TOOLS_PROMPT_MAX

end WellFormed

/-! ## Lists of rounds -/

variable {base short : List (Message Id)} {armed : Armed}

@[simp] theorem total_append (l₁ l₂ : List (Message Id)) : total (l₁ ++ l₂) = total l₁ + total l₂ := by
  simp [total]

/-- Rounds one after the other. -/
def flat (rs : List (Round Id)) : List (Message Id) := rs.flatMap Round.msgs

@[simp] theorem flat_append (rs rs' : List (Round Id)) : flat (rs ++ rs') = flat rs ++ flat rs' := by
  simp [flat]

@[simp] theorem flat_singleton (r : Round Id) : flat [r] = r.msgs := by simp [flat]

/-- A round announces a call and has tool messages only. -/
structure Round.Proper (r : Round Id) : Prop where
  nonempty : r.answer.toolCalls ≠ []
  tools : ∀ m ∈ r.tools, m.isTool = true

/-- A context without calls and tool messages. -/
def Plain (base : List (Message Id)) : Prop := ∀ m ∈ base, m.isPlain = true

theorem isRound_of_isPlain {m : Message Id} (h : m.isPlain = true) : m.isRound = false := by
  cases m with
  | plain => rfl
  | calls => cases h
  | tool => cases h

theorem isRound_of_isTool {m : Message Id} (h : m.isTool = true) : m.isRound = false := by
  cases m with
  | plain => cases h
  | calls => cases h
  | tool => rfl

theorem Round.Proper.isRound {r : Round Id} (h : r.Proper) : r.answer.announced.isRound = true := by
  simpa [Answer.announced, Message.isRound] using h.nonempty

theorem head_flat (rs : List (Round Id)) : ∀ m ∈ (flat rs).head?, m.isTool = false := by
  cases rs with
  | nil => simp [flat]
  | cons r rs => simp [flat, Round.msgs, Answer.announced, Message.isTool]

theorem takeWhile_tools {tools rest : List (Message Id)} (htools : ∀ m ∈ tools, m.isTool = true)
    (hrest : ∀ m ∈ rest.head?, m.isTool = false) :
    (tools ++ rest).takeWhile Message.isTool = tools ∧
      (tools ++ rest).dropWhile Message.isTool = rest := by
  have hstop : rest.takeWhile Message.isTool = [] ∧ rest.dropWhile Message.isTool = rest := by
    cases rest with
    | nil => exact ⟨rfl, rfl⟩
    | cons m rest =>
      have hm : m.isTool = false := hrest m rfl
      simp [hm]
  constructor
  · rw [List.takeWhile_append_of_pos htools, hstop.1, List.append_nil]
  · rw [List.dropWhile_append_of_pos htools, hstop.2]

theorem dropOldest_base (h : ∀ m ∈ base, m.isRound = false) (rest : List (Message Id)) :
    dropOldest (base ++ rest) = (dropOldest rest).map (base ++ ·) := by
  induction base with
  | nil => simp
  | cons m base ih =>
    have hm : m.isRound = false := h m List.mem_cons_self
    have hrest := ih fun m hm => h m (List.mem_cons_of_mem _ hm)
    simp only [List.cons_append, dropOldest, hm, Bool.false_eq_true, if_false, hrest,
      Option.map_map]
    rfl

theorem dropOldest_flat {r : Round Id} (h : r.Proper) (rs : List (Round Id)) :
    dropOldest (flat (r :: rs)) = some (flat rs) := by
  have hdrop := (takeWhile_tools h.tools (head_flat rs)).2
  have hflat : flat (r :: rs) = r.answer.announced :: (r.tools ++ flat rs) := rfl
  simp only [hflat, dropOldest, h.isRound, if_true, hdrop]

theorem countP_isRound_plain (hbase : Plain base) : base.countP Message.isRound = 0 :=
  List.countP_eq_zero.2 fun m hm => by simp [isRound_of_isPlain (hbase m hm)]

theorem plain_collect (ms : List (Role × List Char)) (sum : Nat) (started : Bool) :
    Plain (collect ms sum started : List (Message Id)) := by
  induction ms generalizing sum started with
  | nil => simp [collect, Plain]
  | cons m ms ih =>
    simp only [collect]
    split
    · simp [Plain]
    · intro m' hm
      rcases List.mem_cons.1 hm with rfl | hm
      · rfl
      · exact ih _ _ m' hm

theorem plain_toolsContext (msgs : List (Role × List Char)) :
    Plain (toolsContext msgs : List (Message Id)) := by
  intro m hm
  simp only [toolsContext] at hm
  rcases List.mem_append.1 hm with hm | hm
  · obtain ⟨x, -, rfl⟩ := List.mem_map.1 hm
    rfl
  · exact plain_collect _ _ _ m (List.mem_reverse.1 hm)

theorem plain_withNote (note : List Char) (h : Plain short) : Plain (withNote note short) := by
  unfold withNote
  split
  · next c rest =>
      intro m hm
      rcases List.mem_cons.1 hm with rfl | hm
      · rfl
      · exact h m (List.mem_cons_of_mem _ hm)
  · intro m hm
    rcases List.mem_cons.1 hm with rfl | hm
    · rfl
    · exact h m hm

theorem plain_context (armed : Armed) (msgs : List (Role × List Char)) :
    Plain (context armed msgs : List (Message Id)) := by
  unfold context
  split
  · exact plain_withNote _ (plain_toolsContext msgs)
  · exact plain_toolsContext msgs

/-! ## What the cap leaves -/

/-- No round is left. -/
def NoRound (short : List (Message Id)) : Prop := ∀ m ∈ short, m.isRound = false

theorem boundToolsPrompt_noRound (h : NoRound short) : boundToolsPrompt short = short := by
  have hnone : dropOldest short = none := by
    have hbase := dropOldest_base h []
    simpa [dropOldest] using hbase
  unfold boundToolsPrompt
  cases short.length with
  | zero => rfl
  | succ fuel =>
    simp only [boundRounds, hnone]
    split <;> rfl

/-- The rounds that stay are the last ones: under the cap or none, and at least as many
as would fit. -/
theorem boundRounds_flat (hbase : Plain base) {rs : List (Round Id)} (hrs : ∀ r ∈ rs, r.Proper)
    {fuel : Nat} (hfuel : rs.length ≤ fuel) :
    ∃ rs', rs' <:+ rs ∧ boundRounds fuel (base ++ flat rs) = base ++ flat rs' ∧
      (total (base ++ flat rs') ≤ TOOLS_PROMPT_MAX ∨ rs' = []) ∧
      ∀ t, t <:+ rs → total (base ++ flat t) ≤ TOOLS_PROMPT_MAX → t <:+ rs' := by
  have hplain : NoRound base := fun m hm => isRound_of_isPlain (hbase m hm)
  induction rs generalizing fuel with
  | nil =>
    refine ⟨[], List.suffix_refl _, ?_, Or.inr rfl, fun t ht _ => ht⟩
    have hnone : dropOldest (base ++ flat []) = none := by
      rw [dropOldest_base hplain]
      rfl
    cases fuel with
    | zero => rfl
    | succ fuel =>
      simp only [boundRounds, hnone]
      split <;> rfl
  | cons r rs ih =>
    obtain ⟨fuel, rfl⟩ : ∃ f, fuel = f + 1 :=
      ⟨fuel - 1, by simp only [List.length_cons] at hfuel; omega⟩
    simp only [boundRounds]
    by_cases hle : total (base ++ flat (r :: rs)) ≤ TOOLS_PROMPT_MAX
    · refine ⟨r :: rs, List.suffix_refl _, ?_, Or.inl hle, fun t ht _ => ht⟩
      rw [if_pos hle]
    · have hdrop : dropOldest (base ++ flat (r :: rs)) = some (base ++ flat rs) := by
        rw [dropOldest_base hplain, dropOldest_flat (hrs r List.mem_cons_self)]
        rfl
      have hlen : rs.length ≤ fuel := by
        simp only [List.length_cons] at hfuel
        omega
      obtain ⟨rs', hsuf, heq, hcap, hmax⟩ :=
        ih (fun r hr => hrs r (List.mem_cons_of_mem _ hr)) hlen
      refine ⟨rs', hsuf.trans (List.suffix_cons r rs), ?_, hcap, ?_⟩
      · rw [if_neg hle, hdrop]
        exact heq
      · intro t ht hfits
        rcases List.suffix_cons_iff.1 ht with rfl | ht
        · exact absurd hfits hle
        · exact hmax t ht hfits

theorem length_le_length_flat (rs : List (Round Id)) : rs.length ≤ (flat rs).length := by
  induction rs with
  | nil => exact Nat.le_refl _
  | cons r rs ih =>
    have hflat : flat (r :: rs) = r.answer.announced :: (r.tools ++ flat rs) := rfl
    simp only [hflat, List.length_cons, List.length_append]
    omega

/-- Whether a result is let in depends on its own round and the context: past the cap
with them alone, every round goes, the one being answered too. -/
theorem bound_push (hbase : Plain base) {rs : List (Round Id)} (hrs : ∀ r ∈ rs, r.Proper)
    {r : Round Id} (hr : r.Proper) {t : Message Id} (ht : t.isTool = true) :
    (total (base ++ (Round.mk r.answer (r.tools ++ [t])).msgs) ≤ TOOLS_PROMPT_MAX ∧
      ∃ rs', rs' <:+ rs ∧
        boundToolsPrompt (base ++ flat (rs ++ [r]) ++ [t])
          = base ++ flat (rs' ++ [⟨r.answer, r.tools ++ [t]⟩]) ∧
        total (base ++ flat (rs' ++ [⟨r.answer, r.tools ++ [t]⟩])) ≤ TOOLS_PROMPT_MAX) ∨
    (TOOLS_PROMPT_MAX < total (base ++ (Round.mk r.answer (r.tools ++ [t])).msgs) ∧
      boundToolsPrompt (base ++ flat (rs ++ [r]) ++ [t]) = base) := by
  let r' : Round Id := ⟨r.answer, r.tools ++ [t]⟩
  have hr' : r'.Proper := by
    refine ⟨hr.nonempty, ?_⟩
    intro m hm
    rcases List.mem_append.1 hm with hm | hm
    · exact hr.tools m hm
    · rw [List.mem_singleton.1 hm]
      exact ht
  have hlist : base ++ flat (rs ++ [r]) ++ [t] = base ++ flat (rs ++ [r']) := by
    simp [r', Round.msgs]
  have hproper : ∀ q ∈ rs ++ [r'], q.Proper := by
    intro q hq
    rcases List.mem_append.1 hq with hq | hq
    · exact hrs q hq
    · rw [List.mem_singleton.1 hq]
      exact hr'
  have hfuel : (rs ++ [r']).length ≤ (base ++ flat (rs ++ [r'])).length := by
    have hlen := length_le_length_flat (rs ++ [r'])
    rw [@List.length_append _ base]
    omega
  obtain ⟨kept, hsuf, heq, hcap, hmax⟩ := boundRounds_flat hbase hproper hfuel
  rw [hlist]
  by_cases hfits : total (base ++ r'.msgs) ≤ TOOLS_PROMPT_MAX
  · have hlast : [r'] <:+ kept := by
      refine hmax [r'] (List.suffix_append _ _) ?_
      rwa [flat_singleton]
    obtain ⟨rs', rfl⟩ := hlast
    refine Or.inl ⟨hfits, rs', ?_, heq, ?_⟩
    · exact List.suffix_append_self_iff.1 hsuf
    · exact hcap.resolve_right (by simp)
  · refine Or.inr ⟨Nat.lt_of_not_le hfits, ?_⟩
    -- a round that stays would be the last one
    rcases List.eq_nil_or_concat kept with rfl | ⟨rs', q, rfl⟩
    · exact heq.trans (List.append_nil base)
    · exfalso
      obtain rfl : q = r' := by
        obtain ⟨front, hfront⟩ := hsuf
        rw [List.concat_eq_append, ← List.append_assoc] at hfront
        exact (List.append_singleton_inj.1 hfront).2
      have hle := hcap.resolve_right (by simp)
      simp only [List.concat_eq_append, flat_append, flat_singleton, total_append] at hle
      rw [total_append] at hfits
      omega

/-! ## The calls of a round -/

theorem isTool_toolMsgs (armed : Armed) (cs : List (Call Id)) (steps : Nat → CallInput) :
    ∀ m ∈ toolMsgs armed cs steps, m.isTool = true := by
  induction cs generalizing steps with
  | nil => simp [toolMsgs]
  | cons c cs ih =>
    intro m hm
    rcases List.mem_cons.1 hm with rfl | hm
    · rfl
    · exact ih _ m hm

theorem noRound_push {t : Message Id} (h : NoRound short) (ht : t.isTool = true) :
    boundToolsPrompt (short ++ [t]) = short ++ [t] ∧ NoRound (short ++ [t]) := by
  have hpush : NoRound (short ++ [t]) := by
    intro m hm
    rcases List.mem_append.1 hm with hm | hm
    · exact h m hm
    · rw [List.mem_singleton.1 hm]
      exact isRound_of_isTool ht
  exact ⟨boundToolsPrompt_noRound hpush, hpush⟩

/-- Once the round is gone, its other results are let in without it. -/
theorem answerCalls_noRound {cs : List (Call Id)} {steps : Nat → CallInput} {p : Progress Id}
    (h : NoRound p.short) : NoRound (answerCalls armed cs steps p).short := by
  induction cs generalizing steps p with
  | nil => exact h
  | cons c cs ih =>
    simp only [answerCalls]
    split
    · exact h
    · refine ih ?_
      obtain ⟨heq, hpush⟩ := noRound_push h (t := toolMsg armed c (steps 0)) rfl
      simp only [answerOne]
      rw [heq]
      exact hpush

/-- The loop over the calls ends past the deadline, or with the whole round under the
cap, or without any round. -/
theorem answerCalls_spec (hbase : Plain base) {cs : List (Call Id)} {steps : Nat → CallInput}
    {p : Progress Id} {rs : List (Round Id)} (hrs : ∀ r ∈ rs, r.Proper) {r : Round Id}
    (hr : r.Proper) (hshort : p.short = base ++ flat (rs ++ [r]))
    (hcap : cs = [] → total p.short ≤ TOOLS_PROMPT_MAX) :
    (answerCalls armed cs steps p).deadline < (answerCalls armed cs steps p).now ∨
    (total (base ++ (Round.mk r.answer (r.tools ++ toolMsgs armed cs steps)).msgs)
        ≤ TOOLS_PROMPT_MAX ∧
      total (answerCalls armed cs steps p).short ≤ TOOLS_PROMPT_MAX ∧
      ∃ rs', rs' <:+ rs ∧ (answerCalls armed cs steps p).short
        = base ++ flat (rs' ++ [⟨r.answer, r.tools ++ toolMsgs armed cs steps⟩])) ∨
    (TOOLS_PROMPT_MAX
        < total (base ++ (Round.mk r.answer (r.tools ++ toolMsgs armed cs steps)).msgs) ∧
      NoRound (answerCalls armed cs steps p).short) := by
  induction cs generalizing steps p rs r with
  | nil =>
    have hle := hcap rfl
    have hround : Round.mk r.answer (r.tools ++ toolMsgs armed [] steps) = r := by
      cases r
      simp [toolMsgs]
    rw [hround]
    refine Or.inr (Or.inl ⟨?_, hle, rs, List.suffix_refl rs, hshort⟩)
    rw [hshort] at hle
    simp only [flat_append, flat_singleton, total_append] at hle ⊢
    omega
  | cons c cs ih =>
    simp only [answerCalls]
    split
    · next hlate => exact Or.inl hlate
    · let t := toolMsg armed c (steps 0)
      have htools : r.tools ++ toolMsgs armed (c :: cs) steps
          = r.tools ++ [t] ++ toolMsgs armed cs (fun i => steps (i + 1)) := by
        simp [toolMsgs, t]
      have hstep : ({ p with now := p.now + (steps 0).wait } : Progress Id).short ++ [t]
          = base ++ flat (rs ++ [r]) ++ [t] := congrArg (· ++ [t]) hshort
      rw [htools]
      rcases bound_push hbase hrs hr (t := t) rfl with ⟨-, rs', hsuf, heq, hle⟩ | ⟨hover, heq⟩
      · have hr' : (Round.mk r.answer (r.tools ++ [t])).Proper := by
          refine ⟨hr.nonempty, ?_⟩
          intro m hm
          rcases List.mem_append.1 hm with hm | hm
          · exact hr.tools m hm
          · rw [List.mem_singleton.1 hm]
            rfl
        have hnow : (answerOne armed { p with now := p.now + (steps 0).wait } c (steps 0)).short
            = base ++ flat (rs' ++ [⟨r.answer, r.tools ++ [t]⟩]) := by
          rw [← heq, ← hstep]
          rfl
        rcases ih (fun q hq => hrs q (hsuf.subset hq)) hr' hnow (fun _ => hnow ▸ hle) with
          hlate | ⟨hfits, hcap', rs'', hsuf', hlist⟩ | hgone
        · exact Or.inl hlate
        · exact Or.inr (Or.inl ⟨hfits, hcap', rs'', hsuf'.trans hsuf, hlist⟩)
        · exact Or.inr (Or.inr hgone)
      · refine Or.inr (Or.inr ⟨?_, answerCalls_noRound ?_⟩)
        · simp only [Round.msgs, total, List.map_cons, List.map_append,
            List.sum_cons, List.sum_append] at hover ⊢
          omega
        · have hnow : (answerOne armed { p with now := p.now + (steps 0).wait } c
              (steps 0)).short = base := by
            rw [← heq, ← hstep]
            rfl
          rw [hnow]
          exact fun m hm => isRound_of_isPlain (hbase m hm)

theorem proper_round {a : Answer Id} (hne : a.toolCalls ≠ []) (steps : Nat → CallInput) :
    (a.round armed steps).Proper := ⟨hne, isTool_toolMsgs armed _ steps⟩

/-! ## Complete rounds -/

section Complete

variable [DecidableEq Id]

/-- The tool messages answer the announced calls, each once. -/
structure Round.Complete (r : Round Id) : Prop extends r.Proper where
  once : ∀ c ∈ r.answer.toolCalls, r.tools.countP (Message.answers c.id) = 1
  announced : ∀ m ∈ r.tools, ∃ c ∈ r.answer.toolCalls, m.answers c.id = true

theorem countP_toolMsgs (cs : List (Call Id)) (steps : Nat → CallInput) (id : Id) :
    (toolMsgs armed cs steps).countP (Message.answers id) = (cs.map Call.id).count id := by
  induction cs generalizing steps with
  | nil => rfl
  | cons c cs ih =>
    simp only [toolMsgs, List.countP_cons, ih, List.map_cons, List.count_cons]
    simp [toolMsg, Message.answers]

theorem mem_toolMsgs {cs : List (Call Id)} {steps : Nat → CallInput} {m : Message Id}
    (h : m ∈ toolMsgs armed cs steps) : ∃ c ∈ cs, m.answers c.id = true := by
  induction cs generalizing steps with
  | nil => cases h
  | cons c cs ih =>
    rcases List.mem_cons.1 h with rfl | h
    · exact ⟨c, List.mem_cons_self, by simp [toolMsg, Message.answers]⟩
    · obtain ⟨c', hc, hm⟩ := ih h
      exact ⟨c', List.mem_cons_of_mem _ hc, hm⟩

theorem complete_round {a : Answer Id} (hne : a.toolCalls ≠ [])
    (hids : (a.toolCalls.map Call.id).Nodup) (hfour : a.toolCalls.length ≤ 4)
    (steps : Nat → CallInput) : (a.round armed steps).Complete := by
  have htake : a.toolCalls.take 4 = a.toolCalls := List.take_of_length_le hfour
  refine ⟨proper_round hne steps, ?_, ?_⟩
  · intro c hc
    change (toolMsgs armed (a.toolCalls.take 4) steps).countP _ = 1
    rw [htake, countP_toolMsgs]
    exact List.count_eq_one_of_mem hids (List.mem_map_of_mem hc)
  · intro m hm
    have hm : m ∈ toolMsgs armed (a.toolCalls.take 4) steps := hm
    rw [htake] at hm
    exact mem_toolMsgs hm

theorem exists_unanswered {a : Answer Id} (hids : (a.toolCalls.map Call.id).Nodup)
    (hfour : 4 < a.toolCalls.length) (steps : Nat → CallInput) :
    ∃ c ∈ a.toolCalls, (a.round armed steps).tools.countP (Message.answers c.id) = 0 := by
  have hfifth : a.toolCalls[4] ∈ a.toolCalls.drop 4 := by
    rw [List.drop_eq_getElem_cons hfour]
    exact List.mem_cons_self
  refine ⟨a.toolCalls[4], List.getElem_mem hfour, ?_⟩
  change (toolMsgs armed (a.toolCalls.take 4) steps).countP _ = 0
  rw [countP_toolMsgs, List.count_eq_zero]
  rw [← List.take_append_drop 4 a.toolCalls, List.map_append] at hids
  intro hmem
  exact List.disjoint_of_nodup_append hids hmem (List.mem_map_of_mem hfifth)

theorem answered_tools {cs : List (Call Id)} {tools rest : List (Message Id)}
    (htools : ∀ m ∈ tools, m.isTool = true)
    (hann : ∀ m ∈ tools, ∃ c ∈ cs, m.answers c.id = true) (hrest : Answered (some cs) rest) :
    Answered (some cs) (tools ++ rest) := by
  induction tools with
  | nil => exact hrest
  | cons m tools ih =>
    have htail := ih (fun m hm => htools m (List.mem_cons_of_mem _ hm))
      fun m hm => hann m (List.mem_cons_of_mem _ hm)
    have hm := htools m List.mem_cons_self
    obtain ⟨c, hc, hanswers⟩ := hann m List.mem_cons_self
    cases m with
    | plain => cases hm
    | calls => cases hm
    | tool id name content =>
      have hid : id = c.id := of_decide_eq_true hanswers
      exact ⟨⟨cs, rfl, c, hc, hid.symm⟩, htail⟩

theorem answered_flat {rs : List (Round Id)} (hrs : ∀ r ∈ rs, r.Complete)
    (calls : Option (List (Call Id))) : Answered calls (flat rs) := by
  induction rs generalizing calls with
  | nil => trivial
  | cons r rs ih =>
    have hr := hrs r List.mem_cons_self
    have hrest : Answered (some r.answer.toolCalls) (flat rs) :=
      ih (fun r hr => hrs r (List.mem_cons_of_mem _ hr)) _
    have hflat : flat (r :: rs) = r.answer.announced :: (r.tools ++ flat rs) := rfl
    rw [hflat]
    refine ⟨?_, answered_tools hr.tools hr.announced hrest⟩
    intro c hc
    rw [(takeWhile_tools hr.tools (head_flat rs)).1]
    exact hr.once c hc

theorem answered_base (hbase : Plain base) {rest : List (Message Id)} (h : Answered none rest) :
    Answered none (base ++ rest) := by
  induction base with
  | nil => exact h
  | cons m base ih =>
    have hm := hbase m List.mem_cons_self
    cases m with
    | plain => exact ih fun m hm => hbase m (List.mem_cons_of_mem _ hm)
    | calls => cases hm
    | tool => cases hm

theorem answered_of_append {calls : Option (List (Call Id))} {l₁ l₂ : List (Message Id)}
    (h : Answered calls (l₁ ++ l₂)) : ∃ calls', Answered calls' l₂ := by
  induction l₁ generalizing calls with
  | nil => exact ⟨calls, h⟩
  | cons m l₁ ih =>
    cases m with
    | plain => exact ih h
    | calls => exact ih h.2
    | tool => exact ih h.2

theorem once_of_answered {r : Round Id} (hr : r.Proper) {front : List (Message Id)}
    (h : Answered none (front ++ r.msgs)) :
    ∀ c ∈ r.answer.toolCalls, r.tools.countP (Message.answers c.id) = 1 := by
  obtain ⟨calls, hround⟩ := answered_of_append h
  intro c hc
  have hall := (@takeWhile_tools Id r.tools [] hr.tools (by simp)).1
  rw [List.append_nil] at hall
  have honce := hround.1 c hc
  rwa [hall] at honce

end Complete

/-! ## The run -/

section Run

variable [DecidableEq Id]

/-- What holds of a request as long as every round before it was fine: it is well formed
exactly if its own last round fits, and is then the context with complete rounds. -/
structure Sound (base : List (Message Id)) (r : Request Id) : Prop where
  iff : WellFormed r ↔ ∀ last ∈ r.last, last.Fits base
  rounds : (∀ last ∈ r.last, last.Fits base) → ∃ rs, r.short = base ++ flat rs ∧
    ∀ q ∈ rs, q.Complete

theorem sound_first (hbase : Plain base) : Sound base ⟨base, none⟩ := by
  refine ⟨iff_of_true ⟨?_, ?_, ?_⟩ ?_, fun _ => ⟨[], (List.append_nil base).symm, ?_⟩⟩
  · have hnil : Answered none (base ++ []) := answered_base hbase trivial
    rwa [List.append_nil] at hnil
  · intro last hlast
    cases hlast
  · right
    rw [countP_isRound_plain hbase]
    omega
  · intro last hlast
    cases hlast
  · intro q hq
    cases hq

theorem wellFormed_of_rounds (hbase : Plain base) {rs : List (Round Id)} {r : Round Id}
    (hrs : ∀ q ∈ rs ++ [r], q.Complete) (hshort : short = base ++ flat (rs ++ [r]))
    (hcap : total short ≤ TOOLS_PROMPT_MAX) : WellFormed ⟨short, some r⟩ := by
  refine ⟨?_, ?_, Or.inl hcap⟩
  · change Answered none short
    rw [hshort]
    exact answered_base hbase (answered_flat hrs none)
  · rintro last ⟨⟩
    change r.answer.announced ∈ short
    rw [hshort]
    simp [Round.msgs]

/-- The request after a round: past the cap, the round is missing; with a fifth call, a
call stays without an answer. -/
theorem sound_next (hbase : Plain base) {p : Progress Id} {last : Option (Round Id)}
    (hp : Sound base ⟨p.short, last⟩) (hlast : ∀ r ∈ last, r.Fits base) {a : Answer Id}
    (hne : a.toolCalls ≠ []) (hids : (a.toolCalls.map Call.id).Nodup) {now : Nat}
    (steps : Nat → CallInput) :
    let q := answerCalls armed (a.toolCalls.take 4) steps
      { p with now, short := p.short ++ [a.announced] }
    q.deadline < q.now ∨ Sound base ⟨q.short, some (a.round armed steps)⟩ := by
  intro q
  obtain ⟨rs, hshort, hrs⟩ := hp.rounds hlast
  have hshort : p.short = base ++ flat rs := hshort
  have hstart : ({ p with now, short := p.short ++ [a.announced] } : Progress Id).short
      = base ++ flat (rs ++ [⟨a, []⟩]) := by
    simp [hshort, Round.msgs]
  have hempty : (Round.mk a []).Proper := ⟨hne, fun m hm => by cases hm⟩
  have hcalls : a.toolCalls.take 4 ≠ [] := by simpa using hne
  have hfits : (a.round armed steps).Fits base ↔ a.toolCalls.length ≤ 4 ∧
      total (base ++ (a.round armed steps).msgs) ≤ TOOLS_PROMPT_MAX := Iff.rfl
  rcases @answerCalls_spec Id base armed hbase _ steps _ rs
      (fun r hr => (hrs r hr).toProper) _ hempty hstart (fun h => absurd h hcalls) with
    hlate | ⟨hle, hcap, rs', hsuf, hlist⟩ | ⟨hover, hgone⟩
  · exact Or.inl hlate
  · right
    have hlist : q.short = base ++ flat (rs' ++ [a.round armed steps]) := hlist
    by_cases hfour : a.toolCalls.length ≤ 4
    · have hall : ∀ r ∈ rs' ++ [a.round armed steps], r.Complete := by
        intro r hr
        rcases List.mem_append.1 hr with hr | hr
        · exact hrs r (hsuf.subset hr)
        · rw [List.mem_singleton.1 hr]
          exact complete_round hne hids hfour steps
      refine ⟨iff_of_true (wellFormed_of_rounds hbase hall hlist hcap) ?_, fun _ => ⟨_, hlist, hall⟩⟩
      rintro r ⟨⟩
      exact hfits.2 ⟨hfour, hle⟩
    · have hnot : ¬ (a.round armed steps).Fits base := fun h => hfour (hfits.1 h).1
      refine ⟨iff_of_false ?_ fun h => hnot (h _ rfl), fun h => absurd (h _ rfl) hnot⟩
      intro hwf
      obtain ⟨c, hc, hzero⟩ := @exists_unanswered Id armed _ a hids (Nat.lt_of_not_le hfour) steps
      have hanswered : Answered none (base ++ flat rs' ++ (a.round armed steps).msgs) := by
        have hq : Answered none q.short := hwf.answered
        rw [hlist] at hq
        simpa using hq
      have honce := once_of_answered (proper_round hne steps) hanswered c hc
      omega
  · right
    have hnot : ¬ (a.round armed steps).Fits base := by
      intro h
      exact absurd (hfits.1 h).2 (Nat.not_le_of_lt hover)
    refine ⟨iff_of_false ?_ fun h => hnot (h _ rfl), fun h => absurd (h _ rfl) hnot⟩
    intro hwf
    have hpresent : a.announced ∈ q.short := hwf.present _ rfl
    have hproper : (a.round armed steps).Proper := proper_round hne steps
    have hround := hproper.isRound
    have hno : a.announced.isRound = false := hgone _ hpresent
    exact absurd (hround.symm.trans hno) (by decide)

theorem runRounds_iff (hbase : Plain base) {n : Nat} {inputs : Nat → RoundInput Id}
    (hids : ∀ i, ∀ a ∈ (inputs i).answer, (a.toolCalls.map Call.id).Nodup) {p : Progress Id}
    {last : Option (Round Id)} (hp : p.deadline < p.now ∨ Sound base ⟨p.short, last⟩) :
    (∀ r ∈ runRounds armed n inputs p last, WellFormed r) ↔
      ∀ r ∈ runRounds armed n inputs p last, ∀ q ∈ r.last, q.Fits base := by
  induction n generalizing inputs p last with
  | zero => simp [runRounds]
  | succ n ih =>
    simp only [runRounds]
    split
    · simp
    · next hintime =>
        have hp : Sound base ⟨p.short, last⟩ := by
          refine hp.resolve_left ?_
          omega
        simp only [List.forall_mem_cons]
        rw [hp.iff]
        refine and_congr_right fun hlast => ?_
        cases hanswer : (inputs 0).answer with
        | none => simp
        | some a =>
          simp only
          split
          · simp
          · next hcalls =>
              refine ih (fun i => hids (i + 1)) ?_
              exact sound_next hbase hp hlast (by simpa using hcalls) (hids 0 a hanswer) _

/-- For every context, every sequence of answers whose calls have distinct ids, every
result and every clock: all requests of the phase are well formed exactly when every
round that another request follows has at most four calls and fits under the cap. -/
theorem requests_wellFormed_iff (armed : Armed) (msgs : List (Role × List Char)) (now : Nat)
    (inputs : Nat → RoundInput Id)
    (hids : ∀ i, ∀ a ∈ (inputs i).answer, (a.toolCalls.map Call.id).Nodup) :
    (∀ r ∈ run armed msgs now inputs, WellFormed r) ↔
      ∀ r ∈ run armed msgs now inputs, ∀ q ∈ r.last, q.Fits (context armed msgs) := by
  unfold run
  split
  · exact runRounds_iff (plain_context armed msgs) hids (Or.inr (sound_first (plain_context armed msgs)))
  · simp

/-- Only a search tool. -/
def webOnly : Armed := ⟨true, false, false, false, false, false, []⟩

/-- Every round of the phase: `n` calls, each answered at once. -/
def rounds (n : Nat) : Nat → RoundInput Nat := fun _ =>
  ⟨0, 1, some ⟨.text [], (List.range n).map fun i => ⟨i, "search".toList⟩⟩, fun _ => ⟨0, 1, "ok".toList⟩⟩

theorem requests_wellFormed_four :
    (∀ i, ∀ a ∈ (rounds 4 i).answer, (a.toolCalls.map Call.id).Nodup) ∧
      (run webOnly [(.user, "q".toList)] 0 (rounds 4)).length = 3 ∧
      ∀ r ∈ run webOnly [(.user, "q".toList)] 0 (rounds 4), WellFormed r := by
  have hids : ∀ i, ∀ a ∈ (rounds 4 i).answer, (a.toolCalls.map Call.id).Nodup := by
    rintro i a ⟨⟩
    decide
  refine ⟨hids, by decide, (requests_wellFormed_iff webOnly _ 0 (rounds 4) hids).2 ?_⟩
  unfold Round.Fits
  decide

/-- An answer with five calls: the next request leaves the fifth without its answer. -/
theorem fifth_call_unanswered :
    (∀ i, ∀ a ∈ (rounds 5 i).answer, (a.toolCalls.map Call.id).Nodup) ∧
      ¬ ∀ r ∈ run webOnly [(.user, "q".toList)] 0 (rounds 5), WellFormed r := by
  refine ⟨?_, ?_⟩
  · rintro i a ⟨⟩
    decide
  · intro h
    have hsecond := (h (run webOnly [(.user, "q".toList)] 0 (rounds 5))[1] (List.getElem_mem _)).answered
    have hround := (@answered_of_append _ _ _ [.plain .user "q".toList] _ hsecond).choose_spec
    have honce := hround.1 ⟨4, "search".toList⟩ (by decide)
    revert honce
    decide

end Run

end Portal.Phase
