import DgxPlatform.Portal.DecisionPayload

/-! # Where the two validators agree

Both validators read a question the same way (`reading`) and share most of their
rules. Each has rules of its own: the page wants a written statement and counts
an id in UTF-16 units; the portal refuses a null state and looks into the
criteria of `noul` and `choice`.

* `oneQuestion_ok` and `checkQuestion_ok` say what each validator wants of a
  question, `reading_sent` that the reading survives the way to the portal.
-/

namespace Portal.Decisions

variable {n : Numerals}

/-! ## The rules for a question -/

section Rules

variable {S N : Type}

/-- The fields of a question that has a known type and a statement. -/
def reading [DecidableEq S] (key : String → S) : Doc S N → Option (Question S N)
  | .obj q =>
      (kindOf key (Doc.field (key "type") q)).bind fun kind =>
        (Doc.field (key "instructions") q).map fun i => ⟨kind, i, Doc.field (key "criteria") q⟩
  | _ => none

/-- As many choices or levels as there may be, and levels that are texts. -/
def Question.counted (q : Question S N) : Prop :=
  match q.kind, q.criteria with
  | .noul, _ => True
  | .choice, some (.obj c) => 2 ≤ c.length ∧ c.length ≤ maxChoices
  | .score, some (.arr c) => 2 ≤ c.length ∧ c.length ≤ maxLevels ∧ c.all Doc.isStr = true
  | _, _ => False

/-- The page's rule: a text that is not blank. -/
def Question.written (q : Question JsString N) : Prop :=
  match q.instructions with
  | .str s => trim s ≠ []
  | _ => False

/-- The portal's rule. -/
def Question.stated (q : Question S N) : Prop := isStatement q.instructions = true

/-- A description: a text or null (for the portal, also a number that is sent as null). -/
def describes (nullish : N → Bool) : Doc S N → Bool
  | .null | .str _ => true
  | .num x => nullish x
  | _ => false

/-- The portal's rule on the criteria of `noul` and `choice`. -/
def Question.described (key : String → S) (nullish : N → Bool) (q : Question S N) : Prop :=
  match q.kind, q.criteria with
  | .noul, some (.obj c) =>
      ∀ e ∈ c, (e.1 = key "true" ∨ e.1 = key "false") ∧ describes nullish e.2 = true
  | .noul, some _ => False
  | .choice, some (.obj c) => ∀ e ∈ c, describes nullish e.2 = true
  | _, _ => True

/-- The question as the page passes it on: a `noul` without criteria. -/
def Question.posed (q : Question S N) : Question S N :=
  { q with criteria := if q.kind = .noul then none else q.criteria }

end Rules

/-! ## What each validator wants of a question -/

theorem out_of_bounds_iff {k max : Nat} : (k < 2 ∨ max < k) ↔ ¬ (2 ≤ k ∧ k ≤ max) := by omega

theorem said_or_refused {ε α : Type*} {x : Except ε α} {P : Prop} {a : α} (h : ∀ b, x = .ok b ↔ P ∧ b = a) :
    P ∧ x = .ok a ∨ ¬ P ∧ ∃ e, x = .error e := by
  cases x with
  | error e =>
    refine .inr ⟨fun hP => ?_, e, rfl⟩
    cases (h a).2 ⟨hP, rfl⟩
  | ok b =>
    rcases (h b).1 rfl with ⟨hP, rfl⟩
    exact .inl ⟨hP, rfl⟩

theorem kindChecks_ok {id s : JsString} {criteria : Option (JsDoc n)} {kind : Kind}
    {q : Question JsString n.Js} :
    kindChecks id s criteria kind = .ok q ↔
      (⟨kind, .str s, criteria⟩ : Question JsString n.Js).counted ∧
        q = (⟨kind, .str s, criteria⟩ : Question JsString n.Js).posed := by
  unfold kindChecks Question.counted Question.posed
  cases kind with
  | noul => simp [eq_comm]
  | choice =>
    match criteria with
    | some (.obj c) =>
      simp only [out_of_bounds_iff]
      by_cases hc : 2 ≤ c.length ∧ c.length ≤ maxChoices
      · simp [hc, eq_comm]
      · simp [hc]
    | none | some .null | some (.bool _) | some (.num _) | some (.str _) | some (.arr _) => simp
  | score =>
    match criteria with
    | some (.arr c) =>
      simp only [out_of_bounds_iff, ← and_assoc]
      by_cases hc : 2 ≤ c.length ∧ c.length ≤ maxLevels
      · cases c.all Doc.isStr <;> simp [hc, eq_comm]
      · simp [hc]
    | none | some .null | some (.bool _) | some (.num _) | some (.str _) | some (.obj _) => simp

theorem oneQuestion_ok {id : JsString} {raw : JsDoc n} {q : Question JsString n.Js} :
    oneQuestion id raw = .ok q ↔
      ∃ r, reading js raw = some r ∧ r.counted ∧ r.written ∧ q = r.posed := by
  cases raw with
  | obj fields =>
    simp only [oneQuestion, reading]
    cases hk : kindOf js (Doc.field (js "type") fields) with
    | none => simp
    | some kind =>
      cases hi : Doc.field (js "instructions") fields with
      | none => simp
      | some i =>
        cases i with
        | str s =>
          by_cases hs : trim s = []
          · simp [hs, Question.written]
          · simp [hs, Question.written, kindChecks_ok]
        | _ => simp [Question.written]
  | _ => simp [oneQuestion, reading]

/-- No number is null to the portal. -/
def never {N : Type} (_ : N) : Bool := false

theorem describes_never {d : ServerDoc n} :
    describes never d = (d.isNull || d.isStr) := by
  cases d <;> rfl

theorem noulFields_ok {id : Text} {c : List (Text × ServerDoc n)} :
    noulFields id c = .ok () ↔
      ∀ e ∈ c, (e.1 = key "true" ∨ e.1 = key "false") ∧ describes never e.2 = true := by
  induction c with
  | nil => simp [noulFields]
  | cons e c ih =>
    obtain ⟨k, v⟩ := e
    rw [List.forall_mem_cons, ← ih, describes_never, noulFields]
    by_cases hk : k ≠ key "true" ∧ k ≠ key "false"
    · simp [hk]
    · have hkey : k = key "true" ∨ k = key "false" := by tauto
      cases v.isNull || v.isStr <;> simp [hk, hkey]

theorem choiceFields_ok {id : Text} {c : List (Text × ServerDoc n)} :
    choiceFields id c = .ok () ↔ ∀ e ∈ c, describes never e.2 = true := by
  induction c with
  | nil => simp [choiceFields]
  | cons e c ih =>
    obtain ⟨k, v⟩ := e
    rw [List.forall_mem_cons, ← ih, describes_never, choiceFields]
    cases v.isNull || v.isStr <;> simp

theorem checkNoul_ok {id : Text} {c d : ServerDoc n} :
    checkNoul id c = .ok d ↔
      (⟨.noul, .null, some c⟩ : Question Text n.Rust).described key never ∧ d = c := by
  cases c with
  | obj fields =>
    simp only [checkNoul, Question.described]
    rw [← @noulFields_ok n id]
    cases noulFields id fields <;> simp [eq_comm]
  | _ => simp [checkNoul, Question.described]

theorem checkCriteria_ok {id : Text} {i : ServerDoc n} {criteria : Option (ServerDoc n)}
    {kind : Kind} {q : Question Text n.Rust} :
    checkCriteria id i criteria kind = .ok q ↔
      q.counted ∧ q.described key never ∧ q = ⟨kind, i, criteria⟩ := by
  suffices h : checkCriteria id i criteria kind = .ok q ↔
      (⟨kind, i, criteria⟩ : Question Text n.Rust).counted ∧
        (⟨kind, i, criteria⟩ : Question Text n.Rust).described key never ∧ q = ⟨kind, i, criteria⟩ by
    rw [h]
    constructor
    · rintro ⟨hc, hd, rfl⟩
      exact ⟨hc, hd, rfl⟩
    · rintro ⟨hc, hd, rfl⟩
      exact ⟨hc, hd, rfl⟩
  unfold checkCriteria
  cases kind with
  | noul =>
    cases criteria with
    | none => simp [Question.counted, Question.described, eq_comm]
    | some c =>
      simp only [Question.counted, true_and]
      -- the criteria are described whatever the statement is
      have hsame : (⟨.noul, i, some c⟩ : Question Text n.Rust).described key never ↔
          (⟨.noul, .null, some c⟩ : Question Text n.Rust).described key never := Iff.rfl
      rw [hsame]
      rcases said_or_refused fun d => @checkNoul_ok n id c d with ⟨hd, hr⟩ | ⟨hd, e, hr⟩
      · simp [hd, hr, eq_comm]
      · simp [hd, hr]
  | choice =>
    match criteria with
    | some (.obj c) =>
      simp only [Question.counted, Question.described]
      rw [← @choiceFields_ok n id]
      simp only [out_of_bounds_iff]
      by_cases hc : 2 ≤ c.length ∧ c.length ≤ maxChoices
      · cases choiceFields id c <;> simp [hc, eq_comm]
      · simp [hc]
    | none | some .null | some (.bool _) | some (.num _) | some (.str _) | some (.arr _) =>
      simp [Question.counted]
  | score =>
    match criteria with
    | some (.arr c) =>
      simp only [Question.counted, Question.described, true_and]
      simp only [out_of_bounds_iff, ← and_assoc]
      by_cases hc : 2 ≤ c.length ∧ c.length ≤ maxLevels
      · cases c.all Doc.isStr <;> simp [hc, eq_comm]
      · simp [hc]
    | none | some .null | some (.bool _) | some (.num _) | some (.str _) | some (.obj _) =>
      simp [Question.counted]

theorem checkQuestion_ok {id : Text} {raw : ServerDoc n} {q : Question Text n.Rust} :
    checkQuestion id raw = .ok q ↔
      reading key raw = some q ∧ q.counted ∧ q.stated ∧ q.described key never := by
  cases raw with
  | obj fields =>
    simp only [checkQuestion, reading]
    cases hk : kindOf key (Doc.field (key "type") fields) with
    | none =>
      cases hi : Doc.field (key "instructions") fields with
      | none => simp
      | some i =>
        simp only [Option.bind_none, reduceCtorEq, false_and, iff_false]
        split
        · split <;> simp
        · simp
    | some kind =>
      cases hi : Doc.field (key "instructions") fields with
      | none => simp
      | some i =>
        simp only [Option.bind_some, Option.map_some, Option.some.injEq]
        by_cases hs : isStatement i = true
        · rw [if_pos hs, checkCriteria_ok]
          constructor
          · rintro ⟨hc, hd, rfl⟩
            exact ⟨rfl, hc, hs, hd⟩
          · rintro ⟨rfl, hc, -, hd⟩
            exact ⟨hc, hd, rfl⟩
        · rw [if_neg hs]
          constructor
          · intro h
            cases h
          · rintro ⟨rfl, -, hstated, -⟩
            exact absurd hstated hs
  | _ => simp [checkQuestion, reading]

/-! ## A question on its way to the portal -/

/-- The question with its documents rewritten. -/
def Question.sent (q : Question JsString n.Js) : Question Text n.Rust :=
  ⟨q.kind, Decisions.sent q.instructions, q.criteria.map Decisions.sent⟩

/-- Every string of the question can be sent. -/
def Question.sendable (q : Question JsString n.Js) : Bool :=
  q.instructions.all wellFormed && q.criteria.all (·.all wellFormed)

/-- A number that is sent as null. -/
def nullish (x : n.Js) : Bool := (n.wire x).isNone

theorem text_js (t : String) : text (js t) = key t := by
  simp [text, js, key, List.filterMap_map]

theorem map_char_text {s : JsString} (hs : wellFormed s = true) :
    (text s).map JsChar.char = s := by
  induction s with
  | nil => rfl
  | cons c s ih =>
    cases c with
    | lone u => simp [wellFormed] at hs
    | char c =>
      have hrest : wellFormed s = true := by simpa [wellFormed] using hs
      rw [show text (.char c :: s) = c :: text s from rfl, List.map_cons, ih hrest]

theorem text_eq_key_iff {s : JsString} (hs : wellFormed s = true) (t : String) :
    text s = key t ↔ s = js t := by
  constructor
  · intro h
    rw [← map_char_text hs, h]
    rfl
  · rintro rfl
    exact text_js t

theorem field_sent {fields : List (JsString × JsDoc n)} (h : ∀ e ∈ fields, wellFormed e.1 = true)
    (t : String) :
    Doc.field (key t) (fields.map fun e => (text e.1, sent e.2)) =
      (Doc.field (js t) fields).map sent := by
  rw [← text_js t]
  refine Doc.field_map fun e he heq => ?_
  rw [text_js] at heq
  exact (text_eq_key_iff (h e he) t).1 heq

theorem sent_num (x : n.Js) :
    sent (.num x : JsDoc n) = .null ∨ ∃ y, sent (.num x : JsDoc n) = .num y := by
  rw [sent, Doc.map]
  cases n.wire x with
  | none => exact Or.inl rfl
  | some y => exact Or.inr ⟨y, rfl⟩

theorem kindOf_sent {d : Option (JsDoc n)} (h : ∀ x ∈ d, x.all wellFormed = true) :
    kindOf key (d.map sent) = kindOf js d := by
  match d with
  | none => rfl
  | some (.str s) =>
    have hs : wellFormed s = true := by simpa using h _ rfl
    simp only [Option.map_some, sent, Doc.map_str, kindOf, text_eq_key_iff hs]
  | some (.num x) =>
    rcases sent_num x with hx | ⟨y, hx⟩ <;> simp [hx, kindOf]
  | some .null | some (.bool _) | some (.arr _) | some (.obj _) => simp [sent, kindOf, Doc.map]

theorem all_of_field {fields : List (JsString × JsDoc n)} {k : JsString} {d : JsDoc n}
    (h : (Doc.obj fields).all wellFormed = true) (hd : Doc.field k fields = some d) :
    d.all wellFormed = true := by
  rw [Doc.all_obj] at h
  induction fields with
  | nil => cases hd
  | cons e fields ih =>
    obtain ⟨k', x⟩ := e
    simp only [List.all_cons, Bool.and_eq_true] at h
    rw [Doc.field] at hd
    split at hd
    · rw [← Option.some.inj hd]
      exact h.1.2
    · exact ih h.2 hd

theorem reading_sent {raw : JsDoc n} (h : raw.all wellFormed = true) :
    reading key (sent raw) = (reading js raw).map Question.sent := by
  match raw with
  | .obj fields =>
    have hkeys : ∀ e ∈ fields, wellFormed e.1 = true := by
      rw [Doc.all_obj, List.all_eq_true] at h
      exact fun e he => ((Bool.and_eq_true _ _).mp (h e he)).1
    have hsent : sent (.obj fields : JsDoc n) = .obj (fields.map fun e => (text e.1, sent e.2)) :=
      Doc.map_obj fields
    rw [hsent, reading, reading, field_sent hkeys, field_sent hkeys, field_sent hkeys,
      kindOf_sent fun x hx => all_of_field h hx]
    cases kindOf js (Doc.field (js "type") fields) with
    | none => rfl
    | some kind => cases Doc.field (js "instructions") fields <;> rfl
  | .num x => rcases sent_num x with hx | ⟨y, hx⟩ <;> simp [hx, reading]
  | .null | .bool _ | .str _ | .arr _ => simp [sent, reading, Doc.map]

theorem counted_sent (q : Question JsString n.Js) : q.sent.counted ↔ q.counted := by
  obtain ⟨kind, i, criteria⟩ := q
  unfold Question.counted Question.sent
  cases kind with
  | noul => exact Iff.rfl
  | choice =>
    cases criteria with
    | none => rfl
    | some d =>
      cases d with
      | obj c => simp [sent]
      | num x => rcases sent_num x with hx | ⟨y, hx⟩ <;> simp [hx]
      | _ => simp [sent, Doc.map]
  | score =>
    cases criteria with
    | none => rfl
    | some d =>
      cases d with
      | arr c => simp [sent, Function.comp_def]
      | num x => rcases sent_num x with hx | ⟨y, hx⟩ <;> simp [hx]
      | _ => simp [sent, Doc.map]

theorem stated_sent (q : Question JsString n.Js) : q.sent.stated ↔ q.stated := by
  obtain ⟨kind, i, criteria⟩ := q
  unfold Question.stated Question.sent
  match i with
  | .num x => rcases sent_num x with hx | ⟨y, hx⟩ <;> simp [hx, isStatement]
  | .null | .bool _ | .str _ | .arr _ | .obj _ => simp [sent, Doc.map, isStatement]

theorem describes_sent (d : JsDoc n) : describes never (sent d) = describes nullish d := by
  match d with
  | .num x =>
    rw [sent, Doc.map, describes, nullish]
    cases n.wire x <;> rfl
  | .null | .bool _ | .str _ | .arr _ | .obj _ => simp [sent, Doc.map, describes]

theorem described_sent {q : Question JsString n.Js} (h : q.sendable = true) :
    q.sent.described key never ↔ q.described js nullish := by
  obtain ⟨kind, i, criteria⟩ := q
  unfold Question.described Question.sent
  match criteria with
  | none => cases kind <;> rfl
  | some (.obj c) =>
    have hkeys : ∀ e ∈ c, wellFormed e.1 = true := by
      have hc := ((Bool.and_eq_true _ _).mp h).2
      simp only [Option.all_some, Doc.all_obj, List.all_eq_true, Bool.and_eq_true] at hc
      exact fun e he => (hc e he).1
    cases kind with
    | noul =>
      simp only [Option.map_some, sent, Doc.map_obj, List.forall_mem_map]
      refine forall₂_congr fun e he => ?_
      rw [text_eq_key_iff (hkeys e he), text_eq_key_iff (hkeys e he)]
      exact and_congr_right fun _ => by rw [← describes_sent]; rfl
    | choice =>
      simp only [Option.map_some, sent, Doc.map_obj, List.forall_mem_map]
      exact forall₂_congr fun e he => by rw [← describes_sent]; rfl
    | score => simp
  | some (.num x) =>
    rcases sent_num x with hx | ⟨y, hx⟩ <;> cases kind <;> simp [hx]
  | some .null | some (.bool _) | some (.str _) | some (.arr _) =>
    cases kind <;> simp [sent, Doc.map]

/-- The question that the page writes is the one that the portal reads. -/
theorem reading_doc (q : Question Text n.Rust) : reading key (q.doc key) = some q := by
  obtain ⟨kind, i, criteria⟩ := q
  have htype : Doc.field (key "type") ([(key "type", .str (key kind.name)), (key "instructions", i)] ++
      criteria.toList.map fun c => (key "criteria", c)) = some (.str (key kind.name)) := by
    simp [Doc.field]
  have hi : Doc.field (key "instructions") ([(key "type", .str (key kind.name)),
      (key "instructions", i)] ++ criteria.toList.map fun c => (key "criteria", c)) = some i := by
    have hne : key "type" ≠ key "instructions" := by decide
    simp [Doc.field, hne]
  have hc : Doc.field (key "criteria") ([(key "type", .str (key kind.name)),
      (key "instructions", i)] ++ criteria.toList.map fun c => (key "criteria", c)) = criteria := by
    have hne : key "type" ≠ key "criteria" := by decide
    have hne' : key "instructions" ≠ key "criteria" := by decide
    cases criteria <;> simp [Doc.field, hne, hne']
  have hkind : kindOf key (some (.str (key kind.name) : ServerDoc n)) = some kind := by
    cases kind <;> rfl
  rw [Question.doc, reading, htype, hi, hc, hkind]
  rfl

theorem sent_doc (q : Question JsString n.Js) : sent (q.doc js) = q.sent.doc key := by
  obtain ⟨kind, i, criteria⟩ := q
  cases criteria <;> simp [sent, Question.doc, Question.sent, text_js]

/-! ## The loops -/

/-- What the page wants of an entry. -/
def PageEntry (e : JsString × JsDoc n) : Prop :=
  e.1 ≠ [] ∧ units e.1 ≤ 64 ∧ ∃ r, reading js e.2 = some r ∧ r.counted ∧ r.written

/-- The questions that the page passes on. -/
def posedQuestions (entries : List (JsString × JsDoc n)) :
    List (JsString × Question JsString n.Js) :=
  (entries.filter (·.1 ≠ protoKey)).filterMap fun e =>
    (reading js e.2).map fun r => (e.1, r.posed)

theorem buildQuestions_ok {entries : List (JsString × JsDoc n)}
    {out : List (JsString × Question JsString n.Js)} :
    buildQuestions entries = .ok out ↔
      (∀ e ∈ entries, PageEntry e) ∧ out = posedQuestions entries := by
  induction entries generalizing out with
  | nil => simp [buildQuestions, posedQuestions, eq_comm]
  | cons e entries ih =>
    obtain ⟨id, raw⟩ := e
    rw [List.forall_mem_cons, buildQuestions]
    by_cases hid : id = [] ∨ 64 < units id
    · have hno : ¬ PageEntry (id, raw) := fun h => by
        have hlen : units id ≤ 64 := h.2.1
        rcases hid with hid | hid
        · exact h.1 hid
        · omega
      simp [hid, hno]
    · cases hq : oneQuestion id raw with
      | error e =>
        have hno : ¬ PageEntry (id, raw) := fun ⟨_, _, r, hr, hc, hw⟩ => by
          have hok := (@oneQuestion_ok n id _ _).2 ⟨r, hr, hc, hw, rfl⟩
          rw [hq] at hok
          cases hok
        simp [hid, hno]
      | ok q =>
        obtain ⟨r, hr, hc, hw, rfl⟩ := oneQuestion_ok.1 hq
        have hyes : PageEntry (id, raw) := by
          rw [not_or] at hid
          exact ⟨hid.1, Nat.le_of_not_lt hid.2, r, hr, hc, hw⟩
        have hcons : posedQuestions ((id, raw) :: entries) =
            if id = protoKey then posedQuestions entries
            else (id, r.posed) :: posedQuestions entries := by
          by_cases hp : id = protoKey <;> simp [posedQuestions, hp, hr]
        rw [if_neg hid, hcons]
        rcases said_or_refused fun _ => ih with ⟨hall, hrest⟩ | ⟨hnone, e, hrest⟩
        · simp only [hrest, hyes, true_and, Except.ok.injEq]
          exact ⟨fun h => ⟨hall, h.symm⟩, fun h => h.2.symm⟩
        · simp only [hrest, hnone, and_false, false_and, reduceCtorEq]

/-- What the portal wants of an entry. -/
def PortalEntry (e : Text × ServerDoc n) : Prop :=
  e.1 ≠ [] ∧ e.1.length ≤ 64 ∧
    ∃ r, reading key e.2 = some r ∧ r.counted ∧ r.stated ∧ r.described key never

def readQuestions (entries : List (Text × ServerDoc n)) : List (Text × Question Text n.Rust) :=
  entries.filterMap fun e => (reading key e.2).map fun r => (e.1, r)

theorem checkQuestions_ok {entries : List (Text × ServerDoc n)}
    {out : List (Text × Question Text n.Rust)} :
    checkQuestions entries = .ok out ↔
      (∀ e ∈ entries, PortalEntry e) ∧ out = readQuestions entries := by
  induction entries generalizing out with
  | nil => simp [checkQuestions, readQuestions, eq_comm]
  | cons e entries ih =>
    obtain ⟨id, raw⟩ := e
    rw [List.forall_mem_cons, checkQuestions]
    by_cases hid : id = [] ∨ 64 < id.length
    · have hno : ¬ PortalEntry (id, raw) := fun h => by
        have hlen : id.length ≤ 64 := h.2.1
        rcases hid with hid | hid
        · exact h.1 hid
        · omega
      simp [hid, hno]
    · cases hq : checkQuestion id raw with
      | error e =>
        have hno : ¬ PortalEntry (id, raw) := fun ⟨_, _, r, hr⟩ => by
          have hok := (@checkQuestion_ok n id _ _).2 hr
          rw [hq] at hok
          cases hok
        simp [hid, hno]
      | ok q =>
        have hr := checkQuestion_ok.1 hq
        have hyes : PortalEntry (id, raw) := by
          rw [not_or] at hid
          exact ⟨hid.1, Nat.le_of_not_lt hid.2, q, hr⟩
        have hcons : readQuestions ((id, raw) :: entries) = (id, q) :: readQuestions entries := by
          simp [readQuestions, hr.1]
        rw [if_neg hid, hcons]
        rcases said_or_refused fun _ => ih with ⟨hall, hrest⟩ | ⟨hnone, e, hrest⟩
        · simp only [hrest, hyes, true_and, Except.ok.injEq]
          exact ⟨fun h => ⟨hall, h.symm⟩, fun h => h.2.symm⟩
        · simp only [hrest, hnone, and_false, false_and, reduceCtorEq]

/-! ## The requests -/

theorem validatePayload_ok {parse : JsString → Option (JsDoc n)} {st qt : JsString}
    {files : List JsString} {b : Body n} :
    validatePayload parse st qt files = .ok b ↔
      trim st ≠ [] ∧ stateBytes (stateValue parse st) ≤ maxStateBytes ∧
        ∃ entries, parse (questionsSource qt) = some (.obj entries) ∧ entries ≠ [] ∧
          entries.length ≤ maxQuestions ∧ (∀ e ∈ entries, PageEntry e) ∧
          b = ⟨stateValue parse st, posedQuestions entries, if files = [] then none else some files⟩ := by
  unfold validatePayload parseState
  by_cases ht : trim st = []
  · simp [ht]
  · rw [if_neg ht]
    simp only [ne_eq, ht, not_false_eq_true, true_and]
    by_cases hsize : maxStateBytes < stateBytes (stateValue parse st)
    · have hno : ¬ stateBytes (stateValue parse st) ≤ maxStateBytes := by omega
      simp [hsize, hno]
    · rw [if_neg hsize]
      simp only [Nat.le_of_not_lt hsize, true_and]
      match parse (questionsSource qt) with
      | some (.obj entries) =>
        simp only [Option.some.injEq, Doc.obj.injEq, exists_eq_left']
        by_cases hempty : entries = []
        · simp [hempty]
        · by_cases hmany : maxQuestions < entries.length
          · have hno : ¬ entries.length ≤ maxQuestions := by omega
            simp [hempty, hmany, hno]
          · rw [if_neg hempty, if_neg hmany]
            simp only [hempty, Nat.le_of_not_lt hmany, not_false_eq_true, true_and]
            rcases said_or_refused fun out => @buildQuestions_ok n entries out with ⟨hall, hb⟩ | ⟨hno, e, hb⟩
            · simp only [hb, Except.ok.injEq]
              exact ⟨fun h => ⟨hall, h.symm⟩, fun h => h.2.symm⟩
            · simp only [hb, hno, false_and, reduceCtorEq]
      | none | some .null | some (.bool _) | some (.num _) | some (.str _) | some (.arr _) => simp

/-- What the portal wants of a state and the questions, with files or without. -/
theorem validate_ok {s qd : ServerDoc n} {files : Option (List (ServerDoc n))} {p : Payload n} :
    validate (.obj ([(key "state", s), (key "questions", qd)] ++
        files.toList.map fun fs => (key "files", .arr fs))) = .ok p ↔
      serverStateBytes s ≤ maxStateBytes ∧ s.isNull = false ∧
        ∃ entries, qd = .obj entries ∧ entries ≠ [] ∧ entries.length ≤ maxQuestions ∧
          (∀ e ∈ entries, PortalEntry e) ∧ p = ⟨s, readQuestions entries, files, none⟩ := by
  generalize hobj : ([(key "state", s), (key "questions", qd)] ++
    files.toList.map fun fs => (key "files", Doc.arr fs)) = obj
  have hknown : (obj.find? fun e => decide (e.1 ∉ knownFields)) = none := by
    have h1 : key "state" ∈ knownFields := by decide
    have h2 : key "questions" ∈ knownFields := by decide
    have h3 : key "files" ∈ knownFields := by decide
    rw [← hobj]
    cases files <;> simp [h1, h2, h3]
  have hstate : Doc.field (key "state") obj = some s := by
    rw [← hobj]
    simp [Doc.field]
  have hne1 : key "state" ≠ key "questions" := by decide
  have hquestions : Doc.field (key "questions") obj = some qd := by
    rw [← hobj]
    simp [Doc.field, hne1]
  have hfiles : relayedList (key "files") (Doc.field (key "files") obj) = .ok files := by
    have hne2 : key "state" ≠ key "files" := by decide
    have hne3 : key "questions" ≠ key "files" := by decide
    rw [← hobj]
    cases files <;> simp [Doc.field, hne2, hne3, relayedList]
  have himages : relayedList (key "images") (Doc.field (key "images") obj) = .ok none := by
    have hne2 : key "state" ≠ key "images" := by decide
    have hne3 : key "questions" ≠ key "images" := by decide
    have hne4 : key "files" ≠ key "images" := by decide
    rw [← hobj]
    cases files <;> simp [Doc.field, hne2, hne3, hne4, relayedList]
  simp only [validate, hknown, hstate, hquestions, hfiles, himages]
  by_cases hsize : maxStateBytes < serverStateBytes s
  · have hno : ¬ serverStateBytes s ≤ maxStateBytes := by omega
    simp [hsize, hno]
  · rw [if_neg hsize]
    simp only [Nat.le_of_not_lt hsize, true_and]
    cases hnull : s.isNull with
    | true => simp
    | false =>
      simp only [Bool.false_eq_true, if_false, true_and]
      cases qd with
      | obj entries =>
        simp only [Doc.obj.injEq, exists_eq_left']
        by_cases hempty : entries = []
        · simp [hempty]
        · by_cases hmany : maxQuestions < entries.length
          · have hno : ¬ entries.length ≤ maxQuestions := by omega
            simp [hempty, hmany, hno]
          · rw [if_neg hempty, if_neg hmany]
            simp only [hempty, Nat.le_of_not_lt hmany, ne_eq, not_false_eq_true, true_and]
            rcases said_or_refused fun out => @checkQuestions_ok n entries out with ⟨hall, hb⟩ | ⟨hno, e, hb⟩
            · simp only [hb, Except.ok.injEq]
              exact ⟨fun h => ⟨hall, h.symm⟩, fun h => h.2.symm⟩
            · simp only [hb, hno, false_and, reduceCtorEq]
      | _ => simp

/-! ## Agreement -/

/-- The body as the payload that the portal should return for it. -/
def Body.payload (b : Body n) : Payload n where
  state := sent b.state
  questions := b.questions.map fun e => (text e.1, e.2.sent)
  files := b.files.map fun fs => fs.map fun f => .str (text f)
  images := none

/-- The body made of the two parsed texts. -/
def parsedBody (s qd : JsDoc n) : JsDoc n := .obj [(js "state", s), (js "questions", qd)]

/-- A body that the page accepts is accepted by the portal, with the same state, questions
and files; and where both texts are JSON, a refusal of the page is one of the portal. -/
structure Agree (parse : JsString → Option (JsDoc n)) (st qt : JsString)
    (files : List JsString) : Prop where
  accepted : ∀ b, validatePayload parse st qt files = .ok b → received b.doc = some b.payload
  refused : ∀ e s qd, validatePayload parse st qt files = .error e → trim st ≠ [] →
    parse (trim st) = some s → parse (questionsSource qt) = some qd →
    received (parsedBody s qd) = none

/-- The rules that both have: how many questions, ids that are neither empty nor longer than
64 characters, a known type with its counts, and a statement. -/
def Shared (entries : List (JsString × JsDoc n)) : Prop :=
  entries ≠ [] ∧ entries.length ≤ maxQuestions ∧ ∀ e ∈ entries, e.1 ≠ [] ∧ e.1.length ≤ 64 ∧
    ∃ r, reading js e.2 = some r ∧ r.counted ∧ r.stated

/-- The page's own rules: the state as the page writes it, ids of at most 64 UTF-16 units,
and statements that are texts, not blank. -/
def PageRules (s : JsDoc n) (entries : List (JsString × JsDoc n)) : Prop :=
  stateBytes s ≤ maxStateBytes ∧
    ∀ e ∈ entries, units e.1 ≤ 64 ∧ ∀ r, reading js e.2 = some r → r.written

/-- The portal's rules on the state: no lone surrogate, not sent as null, and not too long as
the portal writes it. -/
def StateRules (s : JsDoc n) : Prop :=
  s.all wellFormed = true ∧ (sent s).isNull = false ∧ serverStateBytes (sent s) ≤ maxStateBytes

/-- The portal's own rules on what the page sends: no lone surrogate, an id that is not the
prototype's, and choices described by a text or null. -/
def SentRules (s : JsDoc n) (entries : List (JsString × JsDoc n)) (files : List JsString) : Prop :=
  StateRules s ∧ (∀ f ∈ files, wellFormed f = true) ∧ (∃ e ∈ entries, e.1 ≠ protoKey) ∧
    ∀ e ∈ entries, e.1 ≠ protoKey → wellFormed e.1 = true ∧
      ∀ r, reading js e.2 = some r → r.posed.sendable = true ∧ r.posed.described js nullish

/-- The portal's own rules on the parsed texts; here the criteria of `noul` count too. -/
def ParsedRules (s : JsDoc n) (entries : List (JsString × JsDoc n)) : Prop :=
  StateRules s ∧ (Doc.obj entries).all wellFormed = true ∧
    ∀ e ∈ entries, ∀ r, reading js e.2 = some r → r.described js nullish

theorem received_eq_some {d : JsDoc n} {p : Payload n} :
    received d = some p ↔ d.all wellFormed = true ∧ validate (sent d) = .ok p := by
  unfold received
  cases d.all wellFormed with
  | false => simp
  | true => cases validate (sent d) <;> simp [Except.toOption]

theorem length_le_units (s : JsString) : s.length ≤ units s := by
  induction s with
  | nil => exact Nat.le_refl _
  | cons c s ih =>
    simp only [units, List.map_cons, List.sum_cons, List.length_cons] at ih ⊢
    cases c with
    | char c => simp only; split <;> omega
    | lone u => simp only; omega

theorem stated_of_written {r : Question JsString n.Js} (h : r.written) : r.stated := by
  obtain ⟨kind, i, criteria⟩ := r
  cases i with
  | str s => rfl
  | _ => exact h.elim

theorem length_text {s : JsString} (hs : wellFormed s = true) : (text s).length = s.length := by
  rw [← List.length_map (f := JsChar.char), map_char_text hs]

theorem pageEntry_iff {entries : List (JsString × JsDoc n)} {s : JsDoc n} :
    (stateBytes s ≤ maxStateBytes ∧ entries ≠ [] ∧ entries.length ≤ maxQuestions ∧
      ∀ e ∈ entries, PageEntry e) ↔ Shared entries ∧ PageRules s entries := by
  constructor
  · rintro ⟨hsize, hne, hlen, hall⟩
    refine ⟨⟨hne, hlen, fun e he => ?_⟩, hsize, fun e he => ?_⟩
    · obtain ⟨hid, hunits, r, hr, hc, hw⟩ := hall e he
      exact ⟨hid, (length_le_units e.1).trans hunits, r, hr, hc, stated_of_written hw⟩
    · obtain ⟨-, hunits, r, hr, -, hw⟩ := hall e he
      refine ⟨hunits, fun r' hr' => ?_⟩
      rw [hr] at hr'
      exact Option.some.inj hr' ▸ hw
  · rintro ⟨⟨hne, hlen, hshared⟩, hsize, hpage⟩
    refine ⟨hsize, hne, hlen, fun e he => ?_⟩
    obtain ⟨hid, -, r, hr, hc, -⟩ := hshared e he
    exact ⟨hid, (hpage e he).1, r, hr, hc, (hpage e he).2 r hr⟩

theorem page_accepts {parse : JsString → Option (JsDoc n)} {st qt : JsString}
    {files : List JsString} {b : Body n} :
    validatePayload parse st qt files = .ok b ↔
      trim st ≠ [] ∧ ∃ entries, parse (questionsSource qt) = some (.obj entries) ∧
        Shared entries ∧ PageRules (stateValue parse st) entries ∧
        b = ⟨stateValue parse st, posedQuestions entries, if files = [] then none else some files⟩ := by
  rw [validatePayload_ok]
  refine and_congr_right fun _ => ?_
  constructor
  · rintro ⟨hsize, entries, hparse, hne, hlen, hall, hb⟩
    obtain ⟨hshared, hpage⟩ := pageEntry_iff.1 ⟨hsize, hne, hlen, hall⟩
    exact ⟨entries, hparse, hshared, hpage, hb⟩
  · rintro ⟨entries, hparse, hshared, hpage, hb⟩
    obtain ⟨hsize, hne, hlen, hall⟩ := pageEntry_iff.2 ⟨hshared, hpage⟩
    exact ⟨hsize, entries, hparse, hne, hlen, hall, hb⟩

theorem text_ne_nil {s : JsString} (hs : wellFormed s = true) : text s ≠ [] ↔ s ≠ [] := by
  rw [← List.length_pos_iff, length_text hs, List.length_pos_iff]

theorem sent_eq_obj {d : JsDoc n} {fields : List (Text × ServerDoc n)}
    (h : sent d = .obj fields) :
    ∃ entries, d = .obj entries ∧ fields = entries.map fun e => (text e.1, sent e.2) := by
  match d with
  | .obj entries => exact ⟨entries, rfl, (Doc.obj.inj ((Doc.map_obj entries).symm.trans h)).symm⟩
  | .num x => rcases sent_num x with hx | ⟨y, hx⟩ <;> rw [hx] at h <;> cases h
  | .null | .bool _ | .str _ | .arr _ => simp [sent, Doc.map] at h

theorem sendable_of_reading {raw : JsDoc n} {r : Question JsString n.Js}
    (h : raw.all wellFormed = true) (hr : reading js raw = some r) : r.sendable = true := by
  match raw with
  | .obj fields =>
    obtain ⟨kind, -, hfields⟩ := Option.bind_eq_some_iff.1 hr
    obtain ⟨i, hi, rfl⟩ := Option.map_eq_some_iff.1 hfields
    have hcriteria : (Doc.field (js "criteria") fields).all (·.all wellFormed) = true := by
      cases hc : Doc.field (js "criteria") fields with
      | none => rfl
      | some c => exact all_of_field h hc
    simp [Question.sendable, all_of_field h hi, hcriteria]
  | .null | .bool _ | .num _ | .str _ | .arr _ => cases hr

theorem portalEntry_sent {e : JsString × JsDoc n} (hid : wellFormed e.1 = true)
    (hraw : e.2.all wellFormed = true) :
    PortalEntry (text e.1, sent e.2) ↔ e.1 ≠ [] ∧ e.1.length ≤ 64 ∧
      ∃ r, reading js e.2 = some r ∧ r.counted ∧ r.stated ∧ r.described js nullish := by
  unfold PortalEntry
  simp only [text_ne_nil hid, length_text hid, reading_sent hraw, Option.map_eq_some_iff]
  refine and_congr_right fun _ => and_congr_right fun _ => ?_
  constructor
  · rintro ⟨-, ⟨r, hr, rfl⟩, hc, hs, hd⟩
    exact ⟨r, hr, (counted_sent r).1 hc, (stated_sent r).1 hs,
      (described_sent (sendable_of_reading hraw hr)).1 hd⟩
  · rintro ⟨r, hr, hc, hs, hd⟩
    exact ⟨r.sent, ⟨r, hr, rfl⟩, (counted_sent r).2 hc, (stated_sent r).2 hs,
      (described_sent (sendable_of_reading hraw hr)).2 hd⟩

theorem portalEntry_doc {id : JsString} {q : Question JsString n.Js} (hid : wellFormed id = true)
    (hq : q.sendable = true) :
    PortalEntry (text id, q.sent.doc key) ↔
      id ≠ [] ∧ id.length ≤ 64 ∧ q.counted ∧ q.stated ∧ q.described js nullish := by
  unfold PortalEntry
  simp [text_ne_nil hid, length_text hid, reading_doc, counted_sent, stated_sent,
    described_sent hq]

/-- The portal accepts the parsed texts that keep the shared rules and its own. -/
theorem portal_accepts_parsed {s qd : JsDoc n} :
    (∃ p, received (parsedBody s qd) = some p) ↔
      ∃ entries, qd = .obj entries ∧ Shared entries ∧ ParsedRules s entries := by
  have hsent : sent (parsedBody s qd) = .obj ([(key "state", sent s), (key "questions", sent qd)] ++
      (none : Option (List (ServerDoc n))).toList.map fun fs => (key "files", .arr fs)) := by
    simp [parsedBody, sent, text_js]
  have hall : (parsedBody s qd).all wellFormed = true ↔
      s.all wellFormed = true ∧ qd.all wellFormed = true := by
    have h1 : wellFormed (js "state") = true := by decide
    have h2 : wellFormed (js "questions") = true := by decide
    simp [parsedBody, h1, h2]
  simp only [received_eq_some, hall, hsent, validate_ok]
  constructor
  · rintro ⟨p, ⟨hs, hq⟩, hsize, hnull, fields, hfields, hne, hlen, hentries, -⟩
    obtain ⟨entries, rfl, rfl⟩ := sent_eq_obj hfields
    have hwf : ∀ e ∈ entries, wellFormed e.1 = true ∧ e.2.all wellFormed = true := by
      simpa [List.all_eq_true] using hq
    have hportal : ∀ e ∈ entries, e.1 ≠ [] ∧ e.1.length ≤ 64 ∧
        ∃ r, reading js e.2 = some r ∧ r.counted ∧ r.stated ∧ r.described js nullish :=
      fun e he => (portalEntry_sent (hwf e he).1 (hwf e he).2).1
        (hentries _ (List.mem_map_of_mem he))
    refine ⟨entries, rfl, ⟨?_, ?_, fun e he => ?_⟩, ⟨hs, hnull, hsize⟩, hq, fun e he r hr => ?_⟩
    · simpa using hne
    · simpa using hlen
    · obtain ⟨hid, hlength, r, hr, hc, hst, -⟩ := hportal e he
      exact ⟨hid, hlength, r, hr, hc, hst⟩
    · obtain ⟨-, -, r', hr', -, -, hd⟩ := hportal e he
      rw [hr] at hr'
      exact Option.some.inj hr' ▸ hd
  · rintro ⟨entries, rfl, ⟨hne, hlen, hshared⟩, ⟨hs, hnull, hsize⟩, hq, hdescribed⟩
    have hwf : ∀ e ∈ entries, wellFormed e.1 = true ∧ e.2.all wellFormed = true := by
      simpa [List.all_eq_true] using hq
    refine ⟨_, ⟨hs, hq⟩, hsize, hnull, _, Doc.map_obj entries, by simpa using hne,
      by simpa using hlen, ?_, rfl⟩
    rw [List.forall_mem_map]
    intro e he
    obtain ⟨hid, hlength, r, hr, hc, hst⟩ := hshared e he
    exact (portalEntry_sent (hwf e he).1 (hwf e he).2).2
      ⟨hid, hlength, r, hr, hc, hst, hdescribed e he r hr⟩

theorem mem_posedQuestions {entries : List (JsString × JsDoc n)}
    {x : JsString × Question JsString n.Js} :
    x ∈ posedQuestions entries ↔
      ∃ e ∈ entries, e.1 ≠ protoKey ∧ ∃ r, reading js e.2 = some r ∧ (e.1, r.posed) = x := by
  simp only [posedQuestions, List.mem_filterMap, List.mem_filter, decide_eq_true_eq,
    Option.map_eq_some_iff, and_assoc]

theorem counted_posed (r : Question JsString n.Js) : r.posed.counted ↔ r.counted := by
  obtain ⟨kind, i, criteria⟩ := r
  cases kind <;> simp [Question.posed, Question.counted]

theorem all_doc (q : Question JsString n.Js) : (q.doc js).all wellFormed = q.sendable := by
  obtain ⟨kind, i, criteria⟩ := q
  have h1 : wellFormed (js "type") = true := by decide
  have h2 : wellFormed (js "instructions") = true := by decide
  have h3 : wellFormed (js "criteria") = true := by decide
  have h4 : wellFormed (js kind.name) = true := by cases kind <;> decide
  cases criteria <;> simp [Question.doc, Question.sendable, h1, h2, h3, h4]

theorem readQuestions_doc (questions : List (JsString × Question JsString n.Js)) :
    readQuestions (questions.map fun e => (text e.1, e.2.sent.doc key)) =
      questions.map fun e => (text e.1, e.2.sent) := by
  simp [readQuestions, List.filterMap_map, reading_doc]

theorem received_doc {b : Body n} :
    received b.doc = some b.payload ↔
      StateRules b.state ∧ (∀ fs ∈ b.files, ∀ f ∈ fs, wellFormed f = true) ∧
        b.questions ≠ [] ∧ b.questions.length ≤ maxQuestions ∧
        ∀ e ∈ b.questions, wellFormed e.1 = true ∧ e.2.sendable = true ∧ e.1 ≠ [] ∧
          e.1.length ≤ 64 ∧ e.2.counted ∧ e.2.stated ∧ e.2.described js nullish := by
  obtain ⟨s, questions, files⟩ := b
  have hsent : sent (Body.doc ⟨s, questions, files⟩) =
      .obj ([(key "state", sent s),
        (key "questions", .obj (questions.map fun e => (text e.1, e.2.sent.doc key)))] ++
      (files.map fun fs => fs.map fun f => (.str (text f) : ServerDoc n)).toList.map
        fun fs => (key "files", .arr fs)) := by
    have hq : sent (.obj (questions.map fun e => (e.1, e.2.doc js)) : JsDoc n) =
        .obj (questions.map fun e => (text e.1, e.2.sent.doc key)) := by
      simp [sent, ← sent_doc, Function.comp_def]
    rw [Body.doc, sent, Doc.map_obj]
    cases files with
    | none => simp [text_js, ← hq, sent]
    | some fs => simp [text_js, ← hq, sent, Function.comp_def]
  have hall : (Body.doc ⟨s, questions, files⟩).all wellFormed = true ↔
      s.all wellFormed = true ∧
        (∀ e ∈ questions, wellFormed e.1 = true ∧ e.2.sendable = true) ∧
        ∀ fs ∈ files, ∀ f ∈ fs, wellFormed f = true := by
    have h1 : wellFormed (js "state") = true := by decide
    have h2 : wellFormed (js "questions") = true := by decide
    have h3 : wellFormed (js "files") = true := by decide
    cases files <;> simp [Body.doc, h1, h2, h3, all_doc]
  rw [received_eq_some, hall, hsent, validate_ok]
  constructor
  · rintro ⟨⟨hs, hqs, hfs⟩, hsize, hnull, fields, hfields, hne, hlen, hentries, -⟩
    cases hfields
    refine ⟨⟨hs, hnull, hsize⟩, hfs, by simpa using hne, by simpa using hlen, fun e he => ?_⟩
    have hentry := hentries _ (List.mem_map_of_mem he)
    rw [portalEntry_doc (hqs e he).1 (hqs e he).2] at hentry
    exact ⟨(hqs e he).1, (hqs e he).2, hentry⟩
  · rintro ⟨⟨hs, hnull, hsize⟩, hfs, hne, hlen, hqs⟩
    refine ⟨⟨hs, fun e he => ⟨(hqs e he).1, (hqs e he).2.1⟩, hfs⟩, hsize, hnull, _, rfl,
      by simpa using hne, by simpa using hlen, ?_, ?_⟩
    · rw [List.forall_mem_map]
      intro e he
      obtain ⟨hid, hq, hrest⟩ := hqs e he
      exact (portalEntry_doc hid hq).2 hrest
    · rw [readQuestions_doc]
      rfl

/-- The portal accepts what the page has built if and only if it keeps the portal's own
rules. -/
theorem portal_accepts_body {s : JsDoc n} {entries : List (JsString × JsDoc n)}
    {files : List JsString} (hshared : Shared entries) :
    received (Body.doc ⟨s, posedQuestions entries, if files = [] then none else some files⟩) =
        some (Body.payload ⟨s, posedQuestions entries, if files = [] then none else some files⟩) ↔
      SentRules s entries files := by
  obtain ⟨-, hlen, hentries⟩ := hshared
  have hfiles : (∀ fs ∈ (if files = [] then none else some files : Option (List JsString)),
      ∀ f ∈ fs, wellFormed f = true) ↔ ∀ f ∈ files, wellFormed f = true := by
    by_cases hf : files = [] <;> simp [hf]
  rw [received_doc, SentRules, hfiles]
  refine and_congr_right fun _ => and_congr_right fun _ => ?_
  constructor
  · rintro ⟨hne, -, hqs⟩
    constructor
    · obtain ⟨x, hx⟩ := List.exists_mem_of_ne_nil _ hne
      obtain ⟨e, he, hproto, -⟩ := mem_posedQuestions.1 hx
      exact ⟨e, he, hproto⟩
    · intro e he hproto
      obtain ⟨-, -, r, hr, -⟩ := hentries e he
      refine ⟨(hqs _ (mem_posedQuestions.2 ⟨e, he, hproto, r, hr, rfl⟩)).1, fun r' hr' => ?_⟩
      obtain ⟨-, hsend, -, -, -, -, hd⟩ :=
        hqs _ (mem_posedQuestions.2 ⟨e, he, hproto, r', hr', rfl⟩)
      exact ⟨hsend, hd⟩
  · rintro ⟨⟨e, he, hproto⟩, hqs⟩
    refine ⟨?_, ?_, fun x hx => ?_⟩
    · obtain ⟨-, -, r, hr, -⟩ := hentries e he
      exact List.ne_nil_of_mem (mem_posedQuestions.2 ⟨e, he, hproto, r, hr, rfl⟩)
    · have hfilter := List.length_filterMap_le
        (fun e : JsString × JsDoc n => (reading js e.2).map fun r => (e.1, r.posed))
        (entries.filter (·.1 ≠ protoKey))
      exact hfilter.trans ((List.length_filter_le _ _).trans hlen)
    · obtain ⟨e', he', hproto', r, hr, rfl⟩ := mem_posedQuestions.1 hx
      obtain ⟨hid, hlength, r', hr', hc, hst⟩ := hentries e' he'
      rw [hr] at hr'
      cases hr'
      obtain ⟨hwf, hrest⟩ := hqs e' he' hproto'
      exact ⟨hwf, (hrest r hr).1, hid, hlength, (counted_posed r).2 hc, hst, (hrest r hr).2⟩

/-- The two validators agree on two texts and a list of files if and only if, for questions
that keep the shared rules, the page's own rules imply the portal's own on what is sent, and
the portal's own rules on the parsed texts imply the page's. -/
theorem agree_iff (parse : JsString → Option (JsDoc n)) (st qt : JsString)
    (files : List JsString) :
    Agree parse st qt files ↔
      ∀ entries, trim st ≠ [] → parse (questionsSource qt) = some (.obj entries) →
        Shared entries →
          (PageRules (stateValue parse st) entries →
            SentRules (stateValue parse st) entries files) ∧
          ((parse (trim st)).isSome = true → ParsedRules (stateValue parse st) entries →
            PageRules (stateValue parse st) entries) := by
  constructor
  · intro h entries hst hparse hshared
    constructor
    · intro hpage
      exact (portal_accepts_body hshared).1
        (h.accepted _ (page_accepts.2 ⟨hst, entries, hparse, hshared, hpage, rfl⟩))
    · intro hjson hparsed
      obtain ⟨s, hs⟩ := Option.isSome_iff_exists.1 hjson
      have hvalue : stateValue parse st = s := by simp [stateValue, hs]
      rw [hvalue] at hparsed ⊢
      cases hv : validatePayload parse st qt files with
      | ok b =>
          obtain ⟨-, entries', hparse', -, hpage, -⟩ := page_accepts.1 hv
          rw [hparse] at hparse'
          cases hparse'
          rwa [hvalue] at hpage
      | error e =>
          -- the page would refuse what the portal accepts
          obtain ⟨p, hp⟩ := portal_accepts_parsed.2 ⟨entries, rfl, hshared, hparsed⟩
          rw [h.refused e s _ hv hst hs hparse] at hp
          cases hp
  · intro h
    constructor
    · intro b hb
      obtain ⟨hst, entries, hparse, hshared, hpage, rfl⟩ := page_accepts.1 hb
      exact (portal_accepts_body hshared).2 ((h entries hst hparse hshared).1 hpage)
    · intro e s qd hv hst hs hparse
      cases hr : received (parsedBody s qd) with
      | none => rfl
      | some p =>
          obtain ⟨entries, rfl, hshared, hparsed⟩ := portal_accepts_parsed.1 ⟨p, hr⟩
          have hvalue : stateValue parse st = s := by simp [stateValue, hs]
          have hpage := (h entries hst hparse hshared).2 (by simp [hs]) (by rwa [hvalue])
          rw [page_accepts.2 ⟨hst, entries, hparse, hshared, hpage, rfl⟩] at hv
          cases hv

/-- Numbers that are written in decimal on both sides. -/
def decimals : Numerals where
  Js := Nat
  Rust := Nat
  wire := some
  jsBytes := fun x => (Nat.toDigits 10 x).length
  rustBytes := fun x => (Nat.toDigits 10 x).length

def oneNoulText : JsString :=
  js "\x7b\"q\": \x7b\"type\": \"noul\", \"instructions\": \"oui ?\"\x7d\x7d"

/-- `JSON.parse` on the two texts. -/
def parseBoth (t : JsString) : Option (JsDoc decimals) :=
  if t = js "null" then some .null
  else if t = oneNoulText then
    some (.obj [(js "q", .obj [(js "type", .str (js "noul")),
      (js "instructions", .str (js "oui ?"))])])
  else none

def nullBody : Body decimals :=
  ⟨.null, [(js "q", ⟨.noul, .str (js "oui ?"), none⟩)], none⟩

/-- The page sends a null state, which the portal refuses. -/
theorem null_state_refused :
    validatePayload parseBoth (js "null") oneNoulText [] = .ok nullBody ∧
    received nullBody.doc = none ∧
    ¬ Agree parseBoth (js "null") oneNoulText [] := by
  have hok : validatePayload parseBoth (js "null") oneNoulText [] = .ok nullBody := rfl
  have hnone : received nullBody.doc = none := rfl
  refine ⟨hok, hnone, fun h => ?_⟩
  have haccepted := h.accepted nullBody hok
  rw [hnone] at haccepted
  cases haccepted

end Portal.Decisions
