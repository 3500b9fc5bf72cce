import DgxPlatform.Lib.JsonMembers
import DgxPlatform.Portal.JsonRepair

/-! # The repairs on a JSON text

What the three scanners make of a text that was JSON: with raw line breaks in its strings, with
something behind it, or cut.

* `escape_loosened`: the escapes are put back.
* `firstJsonValue_eq`: the value in front of anything is found.
* `balanceJson_keeps`: what is complete in a cut text is complete in the closed one.
-/

namespace Portal.Repair

open JsonMachine
open Text (isJsSpace)

variable {s s' s1 : State} {t r a b ws : List Char} {v w x : Value} {q : Quote} {path : Path} {c : Char}

/-! ## Raw characters in strings -/

/-- The JSON text and one that may have, in its strings, a raw line break, carriage return or tab
where the JSON text has its escape. -/
inductive Loosened : Quote → List Char → List Char → Prop
  | nil (q : Quote) : Loosened q [] []
  | keep {q : Quote} {t r : List Char} (c : Char) (h : Loosened (q.next c) t r) : Loosened q (c :: t) (c :: r)
  | raw {t r : List Char} (ch e : Char) (hraw : rawControl ch = ['\\', e]) (h : Loosened ⟨true, false⟩ t r) :
      Loosened ⟨true, false⟩ ('\\' :: e :: t) (ch :: r)

theorem escapeFrom_append (q : Quote) (a b : List Char) :
    escapeFrom q (a ++ b) = escapeFrom q a ++ escapeFrom (a.foldl Quote.next q) b := by
  induction a generalizing q with
  | nil => rfl
  | cons c a ih => rw [List.cons_append, escapeFrom, escapeFrom, ih, List.append_assoc, List.foldl_cons]

theorem rawControl_cases {ch e : Char} (h : rawControl ch = ['\\', e]) :
    (ch = '\n' ∧ e = 'n') ∨ (ch = '\r' ∧ e = 'r') ∨ (ch = '\t' ∧ e = 't') := by
  unfold rawControl at h
  split_ifs at h with hn hr ht
  · exact .inl ⟨hn, (List.cons.inj (List.cons.inj h).2).1.symm⟩
  · exact .inr (.inl ⟨hr, (List.cons.inj (List.cons.inj h).2).1.symm⟩)
  · exact .inr (.inr ⟨ht, (List.cons.inj (List.cons.inj h).2).1.symm⟩)
  · cases (List.cons.inj h).2

theorem next_raw {ch e : Char} (h : rawControl ch = ['\\', e]) :
    Quote.next ⟨true, false⟩ ch = ⟨true, false⟩ := by
  rcases rawControl_cases h with ⟨rfl, -⟩ | ⟨rfl, -⟩ | ⟨rfl, -⟩
  · decide
  · decide
  · decide

theorem escape_loosened (h : Loosened q t r) (hq : s.quote = q) (hrun : run s t = some s') : escapeFrom q r = t := by
  induction h generalizing s with
  | nil q => rfl
  | @keep q t r c h ih =>
    rw [run_cons] at hrun
    obtain ⟨s1, hs1, hrun⟩ := Option.bind_eq_some_iff.1 hrun
    have hnext : s1.quote = q.next c := by rw [(step_spec hs1).1, hq]
    rw [escapeFrom, ih hnext hrun]
    split_ifs with hraw
    · rw [← hq] at hraw
      rw [rawControl_eq (control_of_step hs1 hraw)]
      rfl
    · rfl
  | @raw t r ch e hraw h ih =>
    rw [run_cons] at hrun
    obtain ⟨s1, hs1, hrun⟩ := Option.bind_eq_some_iff.1 hrun
    rw [run_cons] at hrun
    obtain ⟨s2, hs2, hrun⟩ := Option.bind_eq_some_iff.1 hrun
    have hnext : s2.quote = ⟨true, false⟩ := by
      rw [(step_spec hs2).1, (step_spec hs1).1, hq]
      rfl
    rw [escapeFrom, next_raw hraw, ih hnext hrun, hraw]
    rfl

/-- The scan of the raw text is where the scan of the JSON text is. -/
theorem foldl_escapeFrom (q : Quote) (t : List Char) : (escapeFrom q t).foldl Quote.next q = t.foldl Quote.next q := by
  induction t generalizing q with
  | nil => rfl
  | cons ch t ih =>
    rw [escapeFrom, List.foldl_append, List.foldl_cons]
    have hpiece : (if q.inString && !q.escaped then rawControl ch else [ch]).foldl Quote.next q = q.next ch := by
      split_ifs with hin
      · obtain ⟨inString, escaped⟩ := q
        rw [Bool.and_eq_true, Bool.not_eq_true'] at hin
        obtain ⟨rfl, rfl⟩ := hin
        unfold rawControl
        split_ifs with hn hr ht
        · rw [hn]
          rfl
        · rw [hr]
          rfl
        · rw [ht]
          rfl
        · rfl
      · rfl
    rw [hpiece]
    exact ih (q.next ch)

/-! ## The first value -/

/-- An array or an object. -/
def IsContainer : Value → Prop
  | .arr _ | .obj _ => True
  | _ => False

/-- A value that is no array or object is being read, or has been. -/
def Scalar (s : State) : Prop :=
  s.frames = [] ∧
    match s.mode with
    | .str isKey _ _ => isKey = false
    | .num .. | .word .. => True
    | .done v => ¬ IsContainer v
    | _ => False

theorem scalar_string {text : List Nat} {esc : Esc} (h : stepString [] false text c esc = some s') : Scalar s' := by
  cases esc with
  | plain =>
    rw [stepString] at h
    split_ifs at h
    · cases h
      exact ⟨rfl, fun hv => hv⟩
    · cases h
      exact ⟨rfl, rfl⟩
    · cases h
      exact ⟨rfl, rfl⟩
  | slash =>
    rw [stepString] at h
    split_ifs at h
    · cases h
      exact ⟨rfl, rfl⟩
    · obtain ⟨e, -, rfl⟩ := Option.map_eq_some_iff.1 h
      exact ⟨rfl, rfl⟩
  | code n u =>
    obtain ⟨d, -, hs⟩ := Option.map_eq_some_iff.1 h
    split_ifs at hs
    · cases hs
      exact ⟨rfl, rfl⟩
    · cases hs
      exact ⟨rfl, rfl⟩

theorem scalar_step (hs : Scalar s) (h : step s c = some s') : Scalar s' := by
  obtain ⟨fs, m⟩ := s
  obtain ⟨hfs, hm⟩ := hs
  cases hfs
  cases m with
  | str isKey text esc =>
    cases hm
    exact scalar_string h
  | num n text =>
    dsimp only [step] at h
    cases hnext : n.next c with
    | some n' =>
      rw [hnext] at h
      cases h
      exact ⟨rfl, trivial⟩
    | none =>
      rw [hnext] at h
      dsimp only [endNumber] at h
      split_ifs at h
      cases h
      exact ⟨rfl, fun hv => hv⟩
  | word w n =>
    dsimp only [step] at h
    split_ifs at h
    · cases h
      refine ⟨rfl, fun hv => ?_⟩
      cases w <;> exact hv
    · cases h
      exact ⟨rfl, trivial⟩
  | done v =>
    dsimp only [step] at h
    split_ifs at h
    cases h
    exact ⟨rfl, hm⟩
  | _ => exact hm.elim

theorem scalar_run (hs : Scalar s) (h : run s t = some s') : Scalar s' := by
  induction t generalizing s with
  | nil =>
    cases h
    exact hs
  | cons c t ih =>
    rw [run_cons] at h
    obtain ⟨s1, hs1, hrun⟩ := Option.bind_eq_some_iff.1 h
    exact ih (scalar_step hs hs1) hrun

theorem run_done (h : run ⟨[], .done v⟩ t = some s') : s' = ⟨[], .done v⟩ := by
  induction t with
  | nil =>
    cases h
    rfl
  | cons c t ih =>
    rw [run_cons] at h
    obtain ⟨s1, hs1, hrun⟩ := Option.bind_eq_some_iff.1 h
    dsimp only [step] at hs1
    split_ifs at hs1
    cases hs1
    exact ih hrun

/-- A JSON text of an array or object ends in the state that has it. -/
theorem run_of_parse (hv : IsContainer v) (h : parse t = some v) : run start t = some ⟨[], .done v⟩ := by
  obtain ⟨s, hs, hresult⟩ := Option.bind_eq_some_iff.1 h
  obtain ⟨fs, m⟩ := s
  cases fs with
  | cons f fs => cases hresult
  | nil =>
    cases m with
    | done u =>
      cases hresult
      exact hs
    | num n text =>
      dsimp only [State.result] at hresult
      split_ifs at hresult
      cases hresult
      exact hv.elim
    | _ => cases hresult

theorem exists_bracket (hv : IsContainer v) (h : run start t = some ⟨[], .done v⟩) :
    ∃ ws c rest s1, t = ws ++ c :: rest ∧ (∀ d ∈ ws, JsonText.isSpace d = true) ∧ (c = '\x7b' ∨ c = '[') ∧
      run start ws = some start ∧ step start c = some s1 ∧ s1.closers = [closerOf c] ∧ s1.quote = outside := by
  induction t with
  | nil => cases h
  | cons c t ih =>
    rw [run_cons] at h
    obtain ⟨s1, hs1, hrun⟩ := Option.bind_eq_some_iff.1 h
    have hstart : step start c = if JsonText.isSpace c then some start else beginValue [] c := rfl
    rw [hstart] at hs1
    split_ifs at hs1 with hspace
    · cases hs1
      obtain ⟨ws, d, rest, s2, rfl, hws, hd, hstay, hs2⟩ := ih hrun
      refine ⟨c :: ws, d, rest, s2, rfl, List.forall_mem_cons.2 ⟨hspace, hws⟩, hd, ?_, hs2⟩
      rw [run_cons, hstart, if_pos hspace]
      exact hstay
    · have hfirst : step start c = some s1 := by rw [hstart, if_neg hspace, hs1]
      have hscalar : ¬ Scalar s1 := fun hs => (scalar_run hs hrun).2 hv
      unfold beginValue at hs1
      split_ifs at hs1 with h1 h2 h3
      · cases hs1
        exact absurd ⟨rfl, rfl⟩ hscalar
      · cases hs1
        refine ⟨[], c, t, _, rfl, List.forall_mem_nil _, .inr h2, rfl, hfirst, ?_, rfl⟩
        rw [h2]
        rfl
      · cases hs1
        refine ⟨[], c, t, _, rfl, List.forall_mem_nil _, .inl h3, rfl, hfirst, ?_, rfl⟩
        rw [h3]
        rfl
      · cases hs1
        exact absurd ⟨rfl, trivial⟩ hscalar
      · cases hs1
        exact absurd ⟨rfl, trivial⟩ hscalar
      · cases hs1
        exact absurd ⟨rfl, trivial⟩ hscalar
      · cases hs1
        exact absurd ⟨rfl, trivial⟩ hscalar
      · obtain ⟨n, -, rfl⟩ := Option.map_eq_some_iff.1 hs1
        exact absurd ⟨rfl, trivial⟩ hscalar

theorem done_of_closed (h : step s c = some s') (hopen : s.frames ≠ []) (hclosed : s'.frames = []) :
    ∃ v, s' = ⟨[], .done v⟩ := by
  have heffect := step_effect h
  generalize s.frames = fs at heffect hopen
  cases heffect with
  | stay m' hm' => exact absurd hclosed hopen
  | openArr => cases hclosed
  | openObj => cases hclosed
  | key => cases hclosed
  | add => cases hclosed
  | finish v => exact ⟨v, rfl⟩
  | close f fs =>
    cases fs with
    | nil => exact ⟨_, rfl⟩
    | cons g gs => cases hclosed
  | addClose f fs v =>
    cases fs with
    | nil => exact ⟨_, rfl⟩
    | cons g gs => cases hclosed

theorem valueEnd_eq (hopen : s.frames ≠ []) (h : run s t = some s') (hclosed : s'.frames = []) (i : Nat)
    (rest : List Char) :
    ∃ a b v, t = a ++ b ∧ run s a = some ⟨[], .done v⟩ ∧
      valueEnd s.closers.length s.quote i (t ++ rest) = some (i + a.length) := by
  induction t generalizing s i with
  | nil =>
    cases h
    exact absurd hclosed hopen
  | cons ch t ih =>
    rw [run_cons] at h
    obtain ⟨s1, hs1, hrun⟩ := Option.bind_eq_some_iff.1 h
    obtain ⟨hin, hout⟩ := closers_step hs1
    have hlen : s1.closers.length = s1.frames.length := List.length_map _
    rw [List.cons_append, valueEnd, ← (step_spec hs1).1]
    by_cases hnil : s1.frames = []
    · -- the closer of the outermost array or object
      obtain ⟨v, rfl⟩ := done_of_closed hs1 hopen hnil
      have hsnil : s.closers ≠ [] := fun hc => hopen (List.map_eq_nil_iff.1 hc)
      have hquote : ¬ s.quote.inString = true := fun hq => hsnil (hin hq).symm
      obtain ⟨hopens, hcloses, hplain⟩ := hout (Bool.eq_false_iff.2 hquote)
      have hno : ¬ (ch = '\x7b' ∨ ch = '[') := fun hc => List.cons_ne_nil _ _ (hopens hc).symm
      have hyes : ch = '\x7d' ∨ ch = ']' := by
        by_contra hc
        exact hsnil (hplain hno hc).symm
      have hone : (s.closers.length : Int) - 1 = 0 := by
        rw [hcloses hyes]
        rfl
      refine ⟨[ch], t, v, rfl, by rw [run_cons, hs1]; rfl, ?_⟩
      rw [if_neg hquote, if_neg hno, if_pos hyes, if_pos hone]
      rfl
    · obtain ⟨a, b, v, rfl, ha, hend⟩ := ih hnil hrun (i + 1)
      refine ⟨ch :: a, b, v, rfl, by rw [run_cons, hs1]; exact ha, ?_⟩
      rw [List.length_cons, show i + (a.length + 1) = i + 1 + a.length by omega, ← hend]
      have hpos : s1.closers.length ≠ 0 := by
        rw [hlen]
        exact fun hzero => hnil (List.length_eq_zero_iff.1 hzero)
      split_ifs with hquote hopens hcloses hzero
      · rw [hin hquote]
      · have hlen := congrArg List.length ((hout (Bool.eq_false_iff.2 hquote)).1 hopens)
        rw [List.length_cons] at hlen
        have hdepth : (s.closers.length : Int) + 1 = s1.closers.length := by omega
        rw [hdepth]
      · have hlen := congrArg List.length ((hout (Bool.eq_false_iff.2 hquote)).2.1 hcloses)
        rw [List.length_cons] at hlen
        omega
      · have hlen := congrArg List.length ((hout (Bool.eq_false_iff.2 hquote)).2.1 hcloses)
        rw [List.length_cons] at hlen
        have hdepth : (s.closers.length : Int) - 1 = s1.closers.length := by omega
        rw [hdepth]
      · rw [(hout (Bool.eq_false_iff.2 hquote)).2.2 hopens hcloses]

theorem firstJsonValue_eq (hv : IsContainer v) (h : parse t = some v) (rest : List Char) :
    (firstJsonValue (t ++ rest)).bind parse = some v := by
  obtain ⟨ws, c, u, s1, rfl, hws, hc, hstay, hs1, hclosers, hquote⟩ := exists_bracket hv (run_of_parse hv h)
  have hrun : run s1 u = some ⟨[], .done v⟩ := by
    have hwhole := run_of_parse hv h
    rw [run_append, hstay, Option.bind_some, run_cons, hs1] at hwhole
    exact hwhole
  have hopen : s1.frames ≠ [] := by
    intro hnil
    rw [State.closers, hnil] at hclosers
    cases hclosers
  obtain ⟨a, b, v', rfl, ha, hend⟩ := valueEnd_eq hopen hrun rfl (ws.length + 1) rest
  have hv' : v' = v := by
    rw [run_append, ha, Option.bind_some] at hrun
    have heq := run_done hrun
    rw [State.mk.injEq, Mode.done.injEq] at heq
    exact heq.2.symm
  -- the first bracket is behind the white space
  have hfind : (ws ++ c :: (a ++ b) ++ rest).findIdx? (fun c => c = '\x7b' || c = '[') = some ws.length := by
    have hfront : ws.findIdx? (fun c => c = '\x7b' || c = '[') = none := by
      rw [List.findIdx?_eq_none_iff]
      intro d hd
      obtain ⟨-, h1, h2, -, -⟩ := plain_of_isSpace (hws d hd)
      rw [decide_eq_false h1, decide_eq_false h2]
      rfl
    have hhere : (decide (c = '\x7b') || decide (c = '[')) = true := by
      rw [Bool.or_eq_true, decide_eq_true_eq, decide_eq_true_eq]
      exact hc
    rw [List.append_assoc, List.findIdx?_append, hfront, List.cons_append, List.findIdx?_cons, if_pos hhere]
    exact congrArg some (Nat.zero_add ws.length)
  have hdepth : valueEnd 0 outside ws.length (c :: (a ++ b ++ rest)) = some (ws.length + 1 + a.length) := by
    have hnext : Quote.next outside c = s1.quote := by
      rw [hquote]
      rcases hc with rfl | rfl
      · decide
      · decide
    rw [hclosers] at hend
    rw [valueEnd, if_neg (by decide), if_pos hc, hnext]
    exact hend
  have hcut : (firstJsonValue (ws ++ c :: (a ++ b) ++ rest)) = some (c :: a) := by
    have hdrop : (ws ++ c :: (a ++ b) ++ rest).drop ws.length = c :: (a ++ b ++ rest) := by
      rw [List.append_assoc, List.drop_left]
      rfl
    have htake : (ws ++ c :: (a ++ b) ++ rest).take (ws.length + 1 + a.length) = ws ++ c :: a := by
      have hsplit : ws ++ c :: (a ++ b) ++ rest = (ws ++ c :: a) ++ (b ++ rest) := by simp
      rw [hsplit, List.take_left']
      simp only [List.length_append, List.length_cons]
      omega
    rw [firstJsonValue, hfind, Option.bind_some, hdrop, hdepth, Option.map_some, htake, List.drop_left]
  rw [hcut, Option.bind_some, parse, run_cons, hs1, Option.bind_some, ha, hv']
  rfl

/-! ## A cut text -/

/-- A number at the end is complete. -/
def settled (s : State) : State :=
  match s.mode with
  | .num _ text => give (.num text) s.frames
  | _ => s

/-- The text ends between two tokens, or inside of a string that is a value and not in an escape. -/
def Breaks (s : State) (rest : List Char) : Prop :=
  match s.mode with
  | .str isKey _ esc => isKey = false ∧ esc = .plain
  | .num n _ => ∀ c ∈ rest.head?, n.next c = none
  | .word .. => False
  | _ => True

/-- At the path stands a member that is complete in the cut text, or something in one. -/
def Complete (s : State) (path : Path) (x : Value) : Prop := (settled s).Holds path x

theorem inText_frames (hs : InText s) (hs' : InText s') (h : step s c = some s') : s'.frames = s.frames := by
  obtain ⟨fs, isKey, text, rfl⟩ := hs
  obtain ⟨fs', isKey', text', rfl⟩ := hs'
  dsimp only [step, stepString] at h
  split_ifs at h with hquote hslash
  · -- the closing quote ends the text
    cases isKey with
    | true =>
      cases fs with
      | nil => cases h
      | cons f fs => cases f <;> cases h
    | false => cases fs <;> cases h
  · cases h
  · cases h
    rfl

theorem spaces_frames (hs : InText s) (hws : ∀ c ∈ ws, isJsSpace c = true) (h : run s ws = some s') :
    s'.frames = s.frames := by
  induction ws generalizing s with
  | nil =>
    cases h
    rfl
  | cons c ws ih =>
    rw [List.forall_mem_cons] at hws
    rw [run_cons] at h
    obtain ⟨s1, hs1, hrun⟩ := Option.bind_eq_some_iff.1 h
    obtain ⟨hin1, -⟩ := space_inText hs hws.1 hs1
    rw [ih hin1 hws.2 hrun, inText_frames hs hin1 hs1]

theorem settled_of_inText (hs : InText s) : settled s = s := by
  obtain ⟨fs, isKey, text, rfl⟩ := hs
  rfl

theorem settled_of_waits (hs : Waits s) : settled s = s := by
  rcases hs with ⟨xs, gs, rfl⟩ | ⟨fields, key, gs, rfl⟩
  · rfl
  · rfl

/-- Behind a comma that is no text, what stands before it is complete. -/
theorem frames_of_comma (h : step s ',' = some s') (hwaits : Waits s') : s'.frames = (settled s).frames := by
  have hafter : ∀ fs, afterValue fs ',' = some s' → s'.frames = fs := by
    intro fs hs'
    cases fs with
    | nil => cases hs'
    | cons f fs => cases f <;> (cases hs'; rfl)
  obtain ⟨fs, m⟩ := s
  cases m with
  | after => exact hafter fs h
  | num n text =>
    have hnext : n.next ',' = none := by cases n <;> rfl
    dsimp only [step] at h
    rw [hnext] at h
    dsimp only at h
    split_ifs at h
    cases fs with
    | nil => cases h
    | cons f fs => exact hafter _ h
  | str isKey text esc =>
    cases esc with
    | plain =>
      cases h
      rcases hwaits with ⟨xs, gs, heq⟩ | ⟨fields, key, gs, heq⟩ <;> cases heq
    | slash => cases h
    | code n u => cases h
  | word w n =>
    have hno : ',' ∉ w.text := by cases w <;> decide
    dsimp only [step] at h
    rw [if_neg fun hc => hno (List.mem_of_getElem? hc)] at h
    cases h
  | _ => cases h

/-- The comma that `balanceJson` drops is behind what is complete, or in a text that is not. -/
theorem complete_of_comma (h : run s (a ++ ',' :: ws) = some s') (hws : ∀ c ∈ ws, isJsSpace c = true) :
    ∃ s1, run s a = some s1 ∧ s'.closing = s1.closing ∧ ∀ path x, Complete s' path x → Complete s1 path x := by
  obtain ⟨s1, hs1, hclosing, -⟩ := closing_of_comma h hws
  refine ⟨s1, hs1, hclosing, fun path x hcomplete => ?_⟩
  rw [run_append, hs1, Option.bind_some, run_cons] at h
  obtain ⟨s2, hs2, hrun⟩ := Option.bind_eq_some_iff.1 h
  rw [Complete] at hcomplete ⊢
  rcases comma_step hs2 with ⟨hin1, hin2, -⟩ | ⟨-, -, hwaits⟩
  · obtain ⟨hin', -⟩ := spaces_inText hin2 hws hrun
    have hframes : s'.frames = s1.frames := (spaces_frames hin2 hws hrun).trans (inText_frames hin1 hin2 hs2)
    rw [settled_of_inText hin'] at hcomplete
    rw [settled_of_inText hin1]
    rcases hcomplete with hin | ⟨v, rfl, -⟩
    · rw [hframes] at hin
      exact .inl hin
    · obtain ⟨fs, isKey, text, heq⟩ := hin'
      cases heq
  · obtain rfl := spaces_waits hwaits hws hrun
    rw [settled_of_waits hwaits] at hcomplete
    rcases hcomplete with hin | ⟨v, rfl, -⟩
    · rw [frames_of_comma hs2 hwaits] at hin
      exact .inl hin
    · rcases hwaits with ⟨xs, gs, heq⟩ | ⟨fields, key, gs, heq⟩ <;> cases heq

theorem balanceJson_run (h : run start t = some s) :
    ∃ s1, run start (dropComma t) = some s1 ∧ parse (balanceJson t) = s1.closed ∧ dropComma t <+: t ∧
      ∀ path x, Complete s path x → Complete s1 path x := by
  obtain ⟨hquote, hclosers⟩ := @openBrackets_eq start s t [] h rfl
  have hquote' : (openBrackets [] outside t).2 = s.quote := hquote
  have hclosers' : (openBrackets [] outside t).1.map closerOf = s.closers := hclosers
  have hbalance : balanceJson t = dropComma t ++ s.closing := by
    rw [balanceJson, hquote', hclosers', List.append_assoc]
    rfl
  have hclosed : ∀ s1, run start (dropComma t) = some s1 → s.closing = s1.closing → parse (balanceJson t) = s1.closed := by
    intro s1 hs1 hclosing
    rw [hbalance, parse, run_append, hs1, hclosing]
    rfl
  rcases dropComma_cases t with ⟨a, ws, rfl, hws, hdropped⟩ | ⟨hsame, -⟩
  · obtain ⟨s1, hs1, hclosing, hcomplete⟩ := complete_of_comma h hws
    rw [← hdropped] at hs1
    refine ⟨s1, hs1, hclosed s1 hs1 hclosing, ?_, hcomplete⟩
    rw [hdropped]
    exact List.prefix_append a _
  · rw [← hsame] at h
    refine ⟨s, h, hclosed s h rfl, ?_, fun _ _ hc => hc⟩
    rw [hsame]

theorem lookup_closed (hfresh : s.Fresh) (h : s.closed = some w) (hcomplete : Complete s path x) :
    lookup w path = some x := by
  obtain ⟨fs, m⟩ := s
  rw [Complete, settled] at hcomplete
  cases fs with
  | nil =>
    cases m with
    | done v =>
      cases h
      rcases hcomplete with hin | ⟨u, hu, hlookup⟩
      · exact hin.elim
      · cases hu
        exact hlookup
    | num n text =>
      have hresult : State.result ⟨[], .num n text⟩ = some w := h
      dsimp only [State.result] at hresult
      split_ifs at hresult
      cases hresult
      rcases hcomplete with hin | ⟨u, hu, hlookup⟩
      · exact hin.elim
      · cases hu
        exact hlookup
    | _ =>
      rcases hcomplete with hin | ⟨u, hu, -⟩
      · exact hin.elim
      · cases hu
  | cons f gs =>
    rw [closed_eq] at h
    obtain ⟨top, htop, rfl⟩ := Option.map_eq_some_iff.1 h
    have hin : HoldsIn (f :: gs) path x → lookup (wrap f.whole gs) path = some x := wrap_holds hfresh.outer
    have hadd : ∀ v, m.Pending → HoldsIn (f :: gs) path x → lookup (wrap (f.add v).whole gs) path = some x :=
      fun v hpending h => wrap_holds hfresh.outer (holdsIn_add (hfresh.inner hpending f rfl) v h)
    cases m with
    | after =>
      cases htop
      rcases hcomplete with h | ⟨u, hu, -⟩
      · exact hin h
      · cases hu
    | item =>
      cases f with
      | arr xs =>
        cases htop
        rcases hcomplete with h | ⟨u, hu, -⟩
        · exact hin h
        · cases hu
      | obj fields key => cases htop
    | first =>
      cases f with
      | arr xs => cases htop
      | obj fields key =>
        cases htop
        rcases hcomplete with h | ⟨u, hu, -⟩
        · exact hin h
        · cases hu
    | str isKey text esc =>
      cases isKey with
      | true => cases f <;> cases htop
      | false =>
        cases esc with
        | plain =>
          have htop' : top = (f.add (.str (text.map scalar))).whole := by cases f <;> (cases htop; rfl)
          rw [htop']
          rcases hcomplete with h | ⟨u, hu, -⟩
          · exact hadd _ rfl h
          · cases hu
        | slash => cases f <;> cases htop
        | code n u => cases f <;> cases htop
    | num n text =>
      have htop' : top = (f.add (.num text)).whole := by
        cases f <;> (dsimp only [State.top] at htop; split_ifs at htop; cases htop; rfl)
      rw [htop']
      rcases hcomplete with h | ⟨u, hu, -⟩
      · exact wrap_holds hfresh.outer h
      · cases hu
    | _ => cases f <;> cases htop

theorem lookup_whole (hv : IsContainer v) (hfresh : s.Fresh) (h : run s t = some ⟨[], .done v⟩)
    (hkeys : ∀ a s1, a <+: t → run s a = some s1 → s1.NewKey) (hbreaks : Breaks s t) (hne : t ≠ [])
    (hcomplete : Complete s path x) : lookup v path = some x := by
  have hend : State.Holds ⟨[], .done v⟩ path x → lookup v path = some x := by
    rintro (hin | ⟨u, hu, hlookup⟩)
    · exact hin.elim
    · cases hu
      exact hlookup
  have hother : settled s = s → lookup v path = some x := by
    intro hsame
    rw [Complete, hsame] at hcomplete
    exact hend (holds_run h hfresh hkeys hcomplete)
  obtain ⟨fs, m⟩ := s
  cases m with
  | num n text =>
    obtain ⟨c, t, rfl⟩ := List.exists_cons_of_ne_nil hne
    have hnext : n.next c = none := hbreaks c rfl
    have hstep : step ⟨fs, .num n text⟩ c = if n.complete then endNumber text c fs else none := by
      dsimp only [step]
      rw [hnext]
    cases fs with
    | nil =>
      -- a number that is the whole text
      rw [run_cons, hstep, endNumber] at h
      split_ifs at h
      · have hdone := run_done (v := .num text) h
        cases hdone
        exact hv.elim
      · cases h
      · cases h
    | cons f gs =>
      -- the character behind the number is read as if the number had been added
      rw [run_cons, hstep] at h
      split_ifs at h with hcomp
      · have hstep' : step (give (.num text) (f :: gs)) c = endNumber text c (f :: gs) := rfl
        have hrun' : run (give (.num text) (f :: gs)) (c :: t) = some ⟨[], .done v⟩ := by
          rw [run_cons, hstep']
          exact h
        refine hend (holds_run hrun' (fresh_give hfresh.outer _) ?_ hcomplete)
        intro a s1 ha hs1
        rcases List.prefix_cons_iff.1 ha with rfl | ⟨a', rfl, -⟩
        · cases hs1
          intro hcolon
          cases hcolon
        · refine hkeys (c :: a') s1 ha ?_
          rw [run_cons, hstep, if_pos hcomp]
          rw [run_cons, hstep'] at hs1
          exact hs1
      · cases h
  | _ => exact hother rfl

/-! ## The chain -/

theorem escapeFrom_ne_nil (q : Quote) (c : Char) (t : List Char) : escapeFrom q (c :: t) ≠ [] := by
  rw [escapeFrom]
  split_ifs
  · unfold rawControl
    split_ifs
    · exact List.cons_ne_nil _ _
    · exact List.cons_ne_nil _ _
    · exact List.cons_ne_nil _ _
    · exact List.cons_ne_nil _ _
  · exact List.cons_ne_nil _ _

/-- Outside of strings, the character behind the cut is the JSON text's. -/
theorem breaks_escapeFrom {z : List Char} (hbreaks : Breaks s z) : Breaks s (escapeFrom s.quote z) := by
  obtain ⟨fs, m⟩ := s
  cases m with
  | num n text =>
    cases z with
    | nil => exact hbreaks
    | cons c z => exact hbreaks
  | _ => exact hbreaks

/-- Every JSON text of an array or object, with raw line breaks, carriage returns and tabs in its
strings, is read through the repairs: whatever follows it, its value is found, and where it is cut
at a token or in a string, either nothing is found or every member that was complete. -/
theorem chain_recovers (j r : List Char) (v : Value) (hparse : parse j = some v) (hv : IsContainer v)
    (hkeys : DistinctKeys j) (hraw : Loosened outside j r) :
    (∀ rest, (firstJsonValue (escapeRawControlChars (r ++ rest))).bind parse = some v) ∧
      ∀ p z, r = p ++ z → z ≠ [] →
        ∃ s, run start (escapeRawControlChars p) = some s ∧
          (Breaks s z → ∀ w, parse (balanceJson (escapeRawControlChars p)) = some w →
            ∀ path x, Complete s path x → lookup v path = some x ∧ lookup w path = some x) := by
  have hwhole := run_of_parse hv hparse
  have hescape : escapeRawControlChars r = j := escape_loosened (s := start) hraw rfl hwhole
  constructor
  · intro rest
    rw [escapeRawControlChars, escapeFrom_append]
    rw [escapeRawControlChars] at hescape
    rw [hescape]
    exact firstJsonValue_eq hv hparse _
  · rintro p z rfl hz
    rw [escapeRawControlChars, escapeFrom_append] at hescape
    rw [← hescape, run_append] at hwhole
    obtain ⟨s, hs, hrest⟩ := Option.bind_eq_some_iff.1 hwhole
    have hquote : p.foldl Quote.next outside = s.quote := by
      rw [← foldl_escapeFrom, quote_run hs]
      rfl
    rw [hquote] at hescape hrest
    have hprefix : ∀ a s1, a <+: escapeRawControlChars p → run start a = some s1 → s1.NewKey := by
      intro a s1 ha hs1
      refine hkeys a s1 (ha.trans ?_) hs1
      rw [← hescape]
      exact List.prefix_append _ _
    refine ⟨s, hs, fun hbreaks w hw path x hcomplete => ⟨?_, ?_⟩⟩
    · refine lookup_whole hv (fresh_run hs fresh_start hprefix) hrest ?_ (breaks_escapeFrom hbreaks) ?_ hcomplete
      · intro a s1 ha hs1
        refine hkeys (escapeRawControlChars p ++ a) s1 ?_ ?_
        · rw [← hescape]
          exact (List.prefix_append_right_inj _).2 ha
        · rw [run_append]
          exact Option.bind_eq_some_iff.2 ⟨s, hs, hs1⟩
      · obtain ⟨c, z, rfl⟩ := List.exists_cons_of_ne_nil hz
        exact escapeFrom_ne_nil _ c z
    · obtain ⟨s1, hs1, hclosed, hpre, hcomplete1⟩ := balanceJson_run hs
      have hfresh1 : s1.Fresh := fresh_run hs1 fresh_start fun a s2 ha hs2 => hprefix a s2 (ha.trans hpre) hs2
      have hw1 : s1.closed = some w := hclosed.symm.trans hw
      exact lookup_closed hfresh1 hw1 (hcomplete1 path x hcomplete)

/-- `{"a":"\n"}`, with the escape and with a raw line break. -/
def sampleJson : List Char := ['\x7b', '"', 'a', '"', ':', '"', '\\', 'n', '"', '\x7d']

def sampleRaw : List Char := ['\x7b', '"', 'a', '"', ':', '"', '\n', '"', '\x7d']

def sampleValue : Value := .obj [(['a'], .str ['\n'])]

theorem loosened_sample : Loosened outside sampleJson sampleRaw := by
  refine .keep _ (.keep _ (.keep _ (.keep _ (.keep _ (.keep _ ?_)))))
  exact .raw '\n' 'n' rfl (.keep _ (.keep _ (.nil _)))

theorem chain_recovers_sample :
    (firstJsonValue (escapeRawControlChars (sampleRaw ++ ['"']))).bind parse = some sampleValue := by
  have hkeys : DistinctKeys sampleJson := distinctKeys_of_inits (by decide +kernel)
  exact (chain_recovers sampleJson sampleRaw sampleValue rfl trivial hkeys loosened_sample).1 ['"']

end Portal.Repair
