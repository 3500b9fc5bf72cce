import Mathlib.Data.List.Pairwise
import DgxPlatform.Lib.Journal
import DgxPlatform.Lib.Regex
import DgxPlatform.Portal.Accounts
import DgxPlatform.Portal.AskFences

/-! # What the model reads of a conversation

Only the last version of a long file stays in the turns of the assistant, the older ones
become a line that points further down; then the oldest messages are dropped until the rest
fits the window.
-/

namespace Portal.History

open Accounts (pyIsSpace pyStrip)
open Ask (blocks artifactOpener)
open Scan (Part)

structure Msg where
  role : String
  content : List Char
  images : List String
deriving DecidableEq

/-- `IMAGE_WEIGHT_CHARS`. -/
def IMAGE_WEIGHT_CHARS : Nat := 1500 * 3

/-- `weight`. -/
def weight (m : Msg) : Nat := m.content.length + IMAGE_WEIGHT_CHARS * m.images.length

/-! ## The name of a block -/

section Keys

-- `\w` of the regex crate
variable (word : Char → Bool)

/-- `announcement()`: a file name in backticks, at most 40 characters before the end. -/
def announcement : Rx Char Unit :=
  .seqs [.one fun c => c = '\x60',
    .group () (.seqs [.many1 fun c => word c || c = '.' || c = '/' || c = '-', .one fun c => c = '.',
      .chars none (fun c => c.isAlphanum) 1 (some 6) false]),
    .one fun c => c = '\x60', .chars none (fun c => c ≠ '\n') 0 (some 40) false, .eot]

/-- The file that a line announces: the first match from the left. -/
def announced (line : List Char) : Option (List Char) :=
  (line.tails.findSome? fun t => (announcement word).captures t).bind fun caps => caps.head?.map Prod.snd

/-- `file_key`. -/
def fileKey (info before : List Char) : List Char :=
  let info := pyStrip info
  let first := ((info.splitOnP pyIsSpace).find? fun s => !s.isEmpty).getD []
  if '.' ∈ first then first
  else
    let lines := before.splitOn '\n'
    -- the last four lines, the nearest first
    match (lines.drop (lines.length - 4)).reverse.findSome? fun line => announced word (pyStrip line) with
    | some name => name
    | none => if first.isEmpty then "bloc".toList else first

/-! ## Older versions -/

/-- `fence()`: the fenced blocks of a message. -/
def fencesOf (content : List Char) : List (Nat × Ask.Block) := blocks artifactOpener false content

/-- The length from which on a block is a version of a file. -/
def LONG : Nat := 2000

/-- The long blocks of the assistant's messages, with their names and the number of the message. -/
def versionsIn (m : Msg) (i : Nat) : List (List Char × Nat) :=
  if m.role ≠ "assistant" then []
  else
    (fencesOf m.content).filterMap fun x =>
      if x.2.body.length < LONG then none
      else some (fileKey word x.2.label (m.content.take x.1), i)

/-- Where the last version of each file is. -/
def lastVersions (history : List Msg) : Dict (List Char) Nat :=
  (history.zipIdx.flatMap fun x => versionsIn word x.1 x.2).foldl (fun last v => last.set v.1 v.2) .empty

/-- The line that stands for an older version. -/
def placeholder (key : List Char) : List Char :=
  "\x60\x60\x60\n[version précédente de \x60".toList ++ key ++
    "\x60 retirée du contexte — la version à jour figure plus bas dans la conversation]\n\x60\x60\x60".toList

/-- What a block of message `i` becomes. -/
def versionText (last : Dict (List Char) Nat) (content : List Char) (i : Nat) (p : Nat) (b : Ask.Block)
    (raw : List Char) : List Char :=
  if b.body.length < LONG then raw
  else
    let key := fileKey word b.label (content.take p)
    if last.get? key = some i then raw else placeholder key

/-- `without_stale_versions`. -/
def withoutStaleVersions (history : List Msg) : List Msg :=
  let last := lastVersions word history
  if last.rows.isEmpty then history
  else
    history.mapIdx fun i m =>
      if m.role ≠ "assistant" then m
      else
        { m with
          content := Scan.rewrite Ask.Block.length (versionText word last m.content i) 0 m.content
            (fencesOf m.content) }

/-! ## The window -/

/-- `i64` arithmetic. -/
def wrapI64 (n : Int) : Int := (n + 2 ^ 63) % 2 ^ 64 - 2 ^ 63

/-- The characters a window has room for; none is known without a window. -/
def budgetOf (ctx : Option Int) : Option Int :=
  (ctx.filter fun c => c ≠ 0).map fun c => max 20000 (wrapI64 (wrapI64 (c - 8192) * 3))

/-- The oldest messages dropped, down to two. -/
def dropOldest (budget : Int) : Int → List Msg → List Msg
  | total, m :: m' :: m'' :: rest =>
      if total > budget then dropOldest budget (total - weight m) (m' :: m'' :: rest)
      else m :: m' :: m'' :: rest
  | _, history => history

/-- `history_for_model`. -/
def historyForModel (history : List Msg) (system : List Char) (ctx : Option Int) : List Msg :=
  let history := withoutStaleVersions word history
  match budgetOf ctx with
  | none => history
  | some budget => dropOldest budget ((history.map weight).sum + system.length) history

/-! ## What becomes of a version -/

/-- A full block of a message, with its text, and the name it is filed under. -/
structure IsVersion (m : Msg) (key raw : List Char) : Prop where
  role : m.role = "assistant"
  block : ∃ p b, (p, b) ∈ fencesOf m.content ∧ LONG ≤ b.body.length ∧
    fileKey word b.label (m.content.take p) = key ∧ raw = (m.content.drop p).take b.length

variable {m : Msg}

theorem mem_versionsIn {i j : Nat} {key : List Char} :
    (key, j) ∈ versionsIn word m i ↔ j = i ∧ ∃ raw, IsVersion word m key raw := by
  unfold versionsIn
  split_ifs with hrole
  · constructor
    · intro h
      exact absurd h List.not_mem_nil
    · rintro ⟨-, raw, h⟩
      exact absurd h.role hrole
  · rw [List.mem_filterMap]
    constructor
    · rintro ⟨⟨p, b⟩, hmem, h⟩
      split_ifs at h with hlong
      cases h
      exact ⟨rfl, _, not_not.1 hrole, p, b, hmem, not_lt.1 hlong, rfl, rfl⟩
    · rintro ⟨rfl, raw, -, p, b, hmem, hlong, rfl, -⟩
      exact ⟨(p, b), hmem, if_neg (not_lt.2 hlong)⟩

variable {history : List Msg} {i : Nat} {key raw : List Char}

/-- The number noted for a name is that of the last message with a version. -/
theorem le_of_version (hm : history[i]? = some m) (h : IsVersion word m key raw) :
    ∃ j n raw', (lastVersions word history).get? key = some j ∧ i ≤ j ∧ history[j]? = some n ∧
      IsVersion word n key raw' := by
  have hmem : (key, i) ∈ history.zipIdx.flatMap fun x => versionsIn word x.1 x.2 :=
    List.mem_flatMap.2 ⟨(m, i), List.mk_mem_zipIdx_iff_getElem?.2 hm, (mem_versionsIn word).2 ⟨rfl, raw, h⟩⟩
  have hsorted : (history.zipIdx.flatMap fun x => versionsIn word x.1 x.2).Pairwise fun v w => v.2 ≤ w.2 := by
    rw [List.pairwise_flatMap]
    constructor
    · intro x _
      refine List.pairwise_of_forall_mem_list fun v hv w hw => ?_
      rw [((mem_versionsIn word).1 hv).1, ((mem_versionsIn word).1 hw).1]
    · have hnumbers : history.zipIdx.Pairwise fun x y => x.2 < y.2 := by
        rw [← List.pairwise_map, List.zipIdx_map_snd]
        exact List.pairwise_lt_range'
      refine hnumbers.imp fun {x y} hlt v hv w hw => ?_
      rw [((mem_versionsIn word).1 hv).1, ((mem_versionsIn word).1 hw).1]
      exact hlt.le
  have hkey : (key, i) ∈ (history.zipIdx.flatMap fun x => versionsIn word x.1 x.2).filter fun v => v.1 = key :=
    List.mem_filter.2 ⟨hmem, decide_eq_true rfl⟩
  have hne := List.ne_nil_of_mem hkey
  -- the last one of them is what is noted
  have hlast := List.getLast_mem hne
  have hle := (hsorted.filter _).rel_getLast_of_rel_getLast_getLast hkey (le_refl _)
  rw [lastVersions, Dict.get?_foldl_set, List.getLast?_eq_some_getLast hne]
  generalize List.getLast _ hne = v at hlast hle ⊢
  obtain ⟨hv, hfiled⟩ := List.mem_filter.1 hlast
  obtain rfl : v.1 = key := of_decide_eq_true hfiled
  obtain ⟨⟨n, j⟩, hn, hvn⟩ := List.mem_flatMap.1 hv
  obtain ⟨hj, raw', hraw'⟩ := (mem_versionsIn word).1 hvn
  have hget := List.mk_mem_zipIdx_iff_getElem?.1 hn
  exact ⟨j, n, raw', congrArg some hj, le_trans hle hj.le, hget, hraw'⟩

/-- A piece of message `i`, before and after: the line for an older version, and a message
further down that holds a newer one. The messages shown begin with number `first`. -/
structure Stale (history shown : List Msg) (first i : Nat) (m : Msg) (x : List Char × List Char) : Prop where
  newer : ∃ key, IsVersion word m key x.1 ∧ x.2 = placeholder key ∧
    ∃ j n n' raw, i < j ∧ history[j]? = some n ∧ shown[j - first]? = some n' ∧
      IsVersion word n key raw ∧ raw <:+: n'.content

/-- The messages from number `first` on, with nothing but lines for older versions changed. -/
structure Shown (history shown : List Msg) (first : Nat) : Prop where
  length : shown.length = history.length - first
  message : ∀ i m, first ≤ i → history[i]? = some m → ∃ m', shown[i - first]? = some m' ∧
    m'.role = m.role ∧ m'.images = m.images ∧ ∃ pieces : List (List Char × List Char),
      m.content = pieces.flatMap Prod.fst ∧ m'.content = pieces.flatMap Prod.snd ∧
        ∀ x ∈ pieces, x.1 = x.2 ∨ Stale word history shown first i m x

/-- What a message of the assistant becomes. -/
def rewritten (history : List Msg) (i : Nat) (m : Msg) : List Char :=
  Scan.rewrite Ask.Block.length (versionText word (lastVersions word history) m.content i) 0 m.content
    (fencesOf m.content)

theorem hit_mem_parts {content raw : List Char} {p : Nat} {b : Ask.Block} :
    Part.hit p b raw ∈ Scan.parts Ask.Block.length 0 content (fencesOf content) ↔
      (p, b) ∈ fencesOf content ∧ raw = (content.drop p).take b.length :=
  Scan.hit_mem_parts_iff (fun _ _ => Nat.zero_le _) (Scan.pairwise_scan _ _ _ _)

theorem infix_rewritten {j : Nat} {n : Msg}
    (hlast : (lastVersions word history).get? key = some j) (h : IsVersion word n key raw) :
    raw <:+: rewritten word history j n := by
  obtain ⟨-, p, b, hmem, hlong, rfl, hraw⟩ := h
  have hpart : Part.hit p b raw ∈ Scan.parts Ask.Block.length 0 n.content (fencesOf n.content) :=
    hit_mem_parts.2 ⟨hmem, hraw⟩
  have hshown : (Part.hit p b raw).shown (versionText word (lastVersions word history) n.content j) = raw := by
    show versionText word _ _ _ _ _ _ = raw
    unfold versionText
    rw [if_neg (not_lt.2 hlong), if_pos hlast]
  rw [rewritten, Scan.rewrite_eq_flatMap, List.flatMap_def]
  exact List.infix_of_mem_flatten (List.mem_map.2 ⟨_, hpart, hshown⟩)

/-- A block is kept, or it is a version that is not the last one of its file. -/
theorem versionText_cases {p : Nat} {b : Ask.Block} {raw : List Char}
    (hrole : m.role = "assistant") (hmem : (p, b) ∈ fencesOf m.content)
    (hraw : raw = (m.content.drop p).take b.length) :
    versionText word (lastVersions word history) m.content i p b raw = raw ∨
      ∃ key, IsVersion word m key raw ∧ (lastVersions word history).get? key ≠ some i ∧
        versionText word (lastVersions word history) m.content i p b raw = placeholder key := by
  unfold versionText
  dsimp only
  split_ifs with hshort hlast
  · exact .inl rfl
  · exact .inl rfl
  · exact .inr ⟨_, ⟨hrole, p, b, hmem, not_lt.1 hshort, rfl, hraw⟩, hlast, rfl⟩

/-- The messages dropped from the front are not those that a line points to. -/
theorem Shown.drop {history shown : List Msg} {first : Nat} (h : Shown word history shown first) (d : Nat) :
    Shown word history (shown.drop d) (first + d) := by
  have hshown : ∀ i, first + d ≤ i → (shown.drop d)[i - (first + d)]? = shown[i - first]? := by
    intro i hi
    rw [List.getElem?_drop]
    congr 1
    omega
  constructor
  · rw [List.length_drop, h.length]
    omega
  · intro i m hi hm
    obtain ⟨m', hm', hrole, himages, pieces, hbefore, hafter, hpieces⟩ := h.message i m (by omega) hm
    refine ⟨m', (hshown i hi).trans hm', hrole, himages, pieces, hbefore, hafter, ?_⟩
    intro x hx
    rcases hpieces x hx with hsame | ⟨key, hversion, hline, j, n, n', raw, hlt, hn, hn', hnewer, hraw⟩
    · exact .inl hsame
    · exact .inr ⟨key, hversion, hline, j, n, n', raw, hlt, hn, (hshown j (by omega)).trans hn', hnewer, hraw⟩

theorem rewritten_of_isEmpty (h : (lastVersions word history).rows.isEmpty = true)
    (hm : history[i]? = some m) (hrole : m.role = "assistant") :
    rewritten word history i m = m.content := by
  have hnone : ∀ key raw, ¬ IsVersion word m key raw := by
    intro key raw hversion
    obtain ⟨j, -, -, hlast, -⟩ := le_of_version word hm hversion
    have hrow := Dict.mem_of_get? hlast
    rw [List.isEmpty_iff.1 h] at hrow
    exact absurd hrow List.not_mem_nil
  have hwhole : (Scan.parts Ask.Block.length 0 m.content (fencesOf m.content)).flatMap Part.raw = m.content :=
    Scan.flatMap_parts 0 m.content _
  refine Eq.trans ?_ hwhole
  rw [rewritten, Scan.rewrite_eq_flatMap]
  refine List.flatMap_congr fun part hpart => ?_
  cases part with
  | text t => rfl
  | hit p b raw =>
    obtain ⟨hmem, hraw⟩ := hit_mem_parts.1 hpart
    rcases versionText_cases word hrole hmem hraw with hkept | ⟨key, hversion, -, -⟩
    · exact hkept
    · exact absurd hversion (hnone key raw)

theorem getElem?_withoutStaleVersions (hm : history[i]? = some m) : (withoutStaleVersions word history)[i]? =
      some (if m.role ≠ "assistant" then m else { m with content := rewritten word history i m }) := by
  unfold withoutStaleVersions
  dsimp only
  by_cases hempty : (lastVersions word history).rows.isEmpty = true
  · rw [if_pos hempty, hm]
    split_ifs with hrole
    · rfl
    · rw [rewritten_of_isEmpty word hempty hm (not_not.1 hrole)]
  · rw [if_neg hempty, List.getElem?_mapIdx, hm]
    rfl

theorem length_withoutStaleVersions (history : List Msg) :
    (withoutStaleVersions word history).length = history.length := by
  unfold withoutStaleVersions
  dsimp only
  split_ifs
  · rfl
  · exact List.length_mapIdx

/-- A version that is not the last one of its file has a newer one in a later message. -/
theorem newer_of_stale (hm : history[i]? = some m)
    (h : IsVersion word m key raw) (hstale : (lastVersions word history).get? key ≠ some i) :
    ∃ j n n' raw', i < j ∧ history[j]? = some n ∧ (withoutStaleVersions word history)[j]? = some n' ∧
      IsVersion word n key raw' ∧ raw' <:+: n'.content := by
  obtain ⟨j, n, raw', hlast, hle, hn, hversion⟩ := le_of_version word hm h
  have hlt : i < j := by
    refine lt_of_le_of_ne hle ?_
    rintro rfl
    exact hstale hlast
  refine ⟨j, n, _, raw', hlt, hn, getElem?_withoutStaleVersions word hn, hversion, ?_⟩
  rw [if_neg (not_not.2 hversion.role)]
  exact infix_rewritten word hlast hversion

theorem shown_withoutStaleVersions (history : List Msg) :
    Shown word history (withoutStaleVersions word history) 0 := by
  constructor
  · exact length_withoutStaleVersions word history
  · intro i m _ hm
    refine ⟨_, getElem?_withoutStaleVersions word hm, ?_⟩
    by_cases hrole : m.role = "assistant"
    · rw [if_neg (not_not.2 hrole)]
      refine ⟨rfl, rfl, (Scan.parts Ask.Block.length 0 m.content (fencesOf m.content)).map fun part =>
        (part.raw, part.shown (versionText word (lastVersions word history) m.content i)), ?_, ?_, ?_⟩
      · rw [List.flatMap_map]
        exact (Scan.flatMap_parts 0 m.content _).symm
      · rw [List.flatMap_map]
        exact Scan.rewrite_eq_flatMap _ 0 m.content _
      · intro x hx
        obtain ⟨part, hpart, rfl⟩ := List.mem_map.1 hx
        cases part with
        | text t => exact .inl rfl
        | hit p b raw =>
          obtain ⟨hmem, hraw⟩ := hit_mem_parts.1 hpart
          rcases versionText_cases word hrole hmem hraw with hkept | ⟨key, hversion, hstale, hline⟩
          · exact .inl hkept.symm
          · exact .inr ⟨key, hversion, hline, newer_of_stale word hm hversion hstale⟩
    · rw [if_pos hrole]
      refine ⟨rfl, rfl, [(m.content, m.content)], ?_, ?_, ?_⟩
      · exact (List.append_nil _).symm
      · exact (List.append_nil _).symm
      · intro x hx
        obtain rfl := List.mem_singleton.1 hx
        exact .inl rfl

/-! ## What the window keeps -/

/-- What a list of messages weighs. -/
def total (history : List Msg) : Nat := (history.map weight).sum

/-- Messages are dropped from the front, while they are too many and more than two. -/
theorem dropOldest_eq (budget : Int) (system : Nat) (history : List Msg) :
    ∃ d, dropOldest budget (total history + system) history = history.drop d ∧
      (total (history.drop d) + system ≤ budget ∨ (history.drop d).length ≤ 2) ∧
      ∀ e < d, budget < total (history.drop e) + system := by
  have hstay : ∀ (h : (total history + system : Int) ≤ budget ∨ history.length ≤ 2),
      dropOldest budget (total history + system) history = history →
      ∃ d, dropOldest budget (total history + system) history = history.drop d ∧
      (total (history.drop d) + system ≤ budget ∨ (history.drop d).length ≤ 2) ∧
      ∀ e < d, budget < total (history.drop e) + system :=
    fun h heq => ⟨0, heq, h, fun e he => absurd he (Nat.not_lt_zero e)⟩
  match history with
  | [] => exact hstay (.inr (Nat.zero_le 2)) rfl
  | [_] => exact hstay (.inr (Nat.le_succ 1)) rfl
  | [_, _] => exact hstay (.inr (Nat.le_refl 2)) rfl
  | m :: m' :: m'' :: rest =>
    by_cases hover : (total (m :: m' :: m'' :: rest) + system : Int) > budget
    · have hweight : (total (m :: m' :: m'' :: rest) + system : Int) - weight m =
          total (m' :: m'' :: rest) + system := by
        simp only [total, List.map_cons, List.sum_cons]
        omega
      obtain ⟨d, heq, hfits, hlonger⟩ := dropOldest_eq budget system (m' :: m'' :: rest)
      refine ⟨d + 1, ?_, hfits, ?_⟩
      · rw [dropOldest, if_pos hover, hweight, heq]
        rfl
      · intro e he
        cases e with
        | zero => exact hover
        | succ e => exact hlonger e (Nat.lt_of_succ_lt_succ he)
    · refine hstay (.inl (not_lt.1 hover)) ?_
      rw [dropOldest, if_neg hover]

/-- The messages from number `d` on fit the window, and with one more they do not. -/
structure Fits (ctx : Option Int) (system : List Char) (history : List Msg) (d : Nat) : Prop where
  whole : budgetOf ctx = none → d = 0
  fits : ∀ budget, budgetOf ctx = some budget →
    total (history.drop d) + system.length ≤ budget ∨ (history.drop d).length ≤ 2
  longer : ∀ budget, budgetOf ctx = some budget → ∀ e < d, budget < total (history.drop e) + system.length

/-- Only lines stand for older versions, with a newer one further down, and what the model
reads is as long an end of that as fits, where the newer ones still are. -/
theorem history_kept (history : List Msg) (system : List Char) (ctx : Option Int) :
    Shown word history (withoutStaleVersions word history) 0 ∧
      ∃ d, historyForModel word history system ctx = (withoutStaleVersions word history).drop d ∧
        Fits ctx system (withoutStaleVersions word history) d ∧
        Shown word history (historyForModel word history system ctx) d := by
  have hshown := shown_withoutStaleVersions word history
  refine ⟨hshown, ?_⟩
  obtain ⟨d, heq, hfits⟩ : ∃ d, historyForModel word history system ctx = (withoutStaleVersions word history).drop d ∧
      Fits ctx system (withoutStaleVersions word history) d := by
    unfold historyForModel
    dsimp only
    cases hbudget : budgetOf ctx with
    | none =>
        refine ⟨0, rfl, fun _ => rfl, ?_, ?_⟩
        · intro budget h
          rw [hbudget] at h
          cases h
        · intro budget h
          rw [hbudget] at h
          cases h
    | some budget =>
        obtain ⟨d, heq, hfits, hlonger⟩ := dropOldest_eq budget system.length (withoutStaleVersions word history)
        refine ⟨d, heq, ?_, ?_, ?_⟩
        · intro h
          rw [hbudget] at h
          cases h
        · intro budget' h
          rw [hbudget] at h
          cases h
          exact hfits
        · intro budget' h
          rw [hbudget] at h
          cases h
          exact hlonger
  have hdrop := hshown.drop word d
  rw [Nat.zero_add, ← heq] at hdrop
  exact ⟨d, heq, hfits, hdrop⟩

end Keys

end Portal.History
