import DgxPlatform.Lib.UrlPath
import DgxPlatform.Portal.Url
import Mathlib.Data.List.GetD

/-! # The media proxy and the path it asks for

`api_media` forwards a call to the sidecar of its family if `path_allowed` knows the
path. It glues the path behind the sidecar's base address; the HTTP client then reads
the whole text as a web address, which takes dot segments away, reads a backslash as a
slash, and ends the path at a question mark or a hash.

`documented_iff`: what the client asks for is documented exactly if the video path is one
of the documented ones but for dot segments and what they take away.

`tokenOk_iff`: the comparison of the token that lets a call through is equality.
-/

namespace Portal.MediaProxy

open Text Url UrlPath

/-- The address of a sidecar as it is configured: scheme, authority, path, and any
number of slashes at its end. -/
structure Base where
  scheme : List Char
  authority : List Char
  path : List Segment
  slashes : Nat
  isScheme : isScheme scheme = true
  authority_ne : authority ≠ []
  authority_plain : ∀ c ∈ authority, isC0OrSpace c = false ∧ inAuthority c = true
  /-- The segments are as the client writes them: not empty, no dots, nothing to escape. -/
  path_plain : ∀ s ∈ path, s ≠ [] ∧ isPlain s = true ∧
    ∀ c ∈ s, c ≠ '/' ∧ c ≠ '\\' ∧ c.toNat < 128 ∧ keepInPath (UInt8.ofNat c.toNat) = true

def pathText (path : List Segment) : List Char := path.flatMap ('/' :: ·)

def Base.text (b : Base) : List Char :=
  b.scheme ++ "://".toList ++ (b.authority ++ pathText b.path) ++ List.replicate b.slashes '/'

/-- Where the four sidecars are. -/
structure Sidecars where
  image : Base
  asr : Base
  tts : Base
  video : Base

/-- `upstream`. -/
def upstream (env : Sidecars) (kind : List Char) : Option Base :=
  if kind = "image".toList then some env.image
  else if kind = "asr".toList then some env.asr
  else if kind = "tts".toList then some env.tts
  else if kind = "video".toList then some env.video
  else none

/-- `path_allowed`. -/
def pathAllowed (kind rest : List Char) : Bool :=
  if kind = "image".toList then rest ∈ ["generate".toList, "health".toList, "model-info".toList]
  else if kind = "asr".toList then rest ∈ ["transcribe".toList, "api/model-info".toList]
  else if kind = "tts".toList then
    rest ∈ ["tts".toList, "clone".toList, "upload_reference".toList, "api/model-info".toList]
  else if kind = "video".toList then
    rest = "prompt".toList || "history/".toList.isPrefixOf rest || "view".toList.isPrefixOf rest
  else false

def forwardUrl (b : Base) (rest : List Char) : List Char :=
  trimEndMatches (· == '/') b.text ++ '/' :: rest

/-- `api_media`, once the gateway's token is checked: the refusal, or the address that is asked. -/
def apiMedia (env : Sidecars) (kind rest : List Char) : Except (List Char) (List Char) :=
  match upstream env kind with
  | none => .error ("Famille « ".toList ++ kind ++ " » inconnue (image, asr, tts, video).".toList)
  | some b =>
      if pathAllowed kind rest then .ok (forwardUrl b rest)
      else .error ("Chemin « ".toList ++ kind ++ '/' :: rest ++ " » non exposé par l'API média.".toList)

/-! ## The client -/

/-- A question mark or a hash ends the path. -/
def inPath (c : Char) : Bool := !(c == '?' || c == '#')

/-- The path the client asks for. -/
def clientPath (url : List Char) : List Segment :=
  let t := (trimMatches isC0OrSpace url).filter fun c => !isTabOrNewline c
  let scheme := t.takeWhile fun c => c != ':'
  let rest := (t.drop (scheme.length + 1)).dropWhile UrlPath.isSlash
  resolve [] (segments ((rest.dropWhile inAuthority).takeWhile inPath)).tail

/-- The segments of the caller's part. -/
def restSegments (rest : List Char) : List Segment :=
  segments (((trimEndMatches isC0OrSpace rest).filter fun c => !isTabOrNewline c).takeWhile inPath)

def history : Segment := "history".toList

/-- The paths of a family that are documented as they are, relative to its sidecar. -/
def exactPaths (kind : List Char) : List (List Segment) :=
  if kind = "image".toList then [["generate".toList], ["health".toList], ["model-info".toList]]
  else if kind = "asr".toList then [["transcribe".toList], ["api".toList, "model-info".toList]]
  else if kind = "tts".toList then
    [["tts".toList], ["clone".toList], ["upload_reference".toList], ["api".toList, "model-info".toList]]
  else if kind = "video".toList then [["prompt".toList], ["view".toList]]
  else []

/-- The documented paths of a family: for video also `history` and one segment. -/
def Documented (kind : List Char) (path : List Segment) : Prop :=
  path ∈ exactPaths kind ∨ kind = "video".toList ∧ ∃ x, x ≠ [] ∧ path = [history, x]

/-- What the client asks for is documented, relative to the base. -/
def AsksDocumented (b : Base) (kind url : List Char) : Prop :=
  ∃ path, Documented kind path ∧ clientPath url = b.path ++ path

/-- Segments that lead to a documented video path: `prompt`, `view`, or `history` and
one segment, but for runs that are taken away again. -/
def LeadsToVideo (base ss : List Segment) : Prop :=
  (∃ u, Keeps base u ∧ (ss = u ++ ["prompt".toList] ∨ ss = u ++ ["view".toList])) ∨
    ∃ u v x, Keeps base u ∧ Keeps (base ++ [history]) v ∧ x ≠ [] ∧ isPlain x = true ∧
      ss = u ++ history :: v ++ [x]

/-! ## The address as the client reads it -/

theorem splitOnP_pathText {path : List Segment} (h : ∀ s ∈ path, ∀ c ∈ s, UrlPath.isSlash c = false) (t : List Char) :
    (pathText path ++ '/' :: t).splitOnP UrlPath.isSlash = [] :: (path ++ t.splitOnP UrlPath.isSlash) := by
  induction path with
  | nil => exact UrlPath.splitOnP_slash t
  | cons s path ih =>
    obtain ⟨hs, hpath⟩ := List.forall_mem_cons.1 h
    have htail := ih hpath
    -- behind the segment stands a slash in any case
    obtain ⟨u, hu⟩ : ∃ u, pathText path ++ '/' :: t = '/' :: u := by
      cases path with
      | nil => exact ⟨t, rfl⟩
      | cons r path => exact ⟨_, rfl⟩
    rw [hu, UrlPath.splitOnP_slash] at htail
    have hrest := (List.cons.inj htail).2
    have htext : pathText (s :: path) ++ '/' :: t = '/' :: (s ++ (pathText path ++ '/' :: t)) := by
      rw [pathText, List.flatMap_cons, List.cons_append, List.cons_append, List.append_assoc]
      rfl
    rw [htext, UrlPath.splitOnP_slash, hu, List.splitOnP_append_cons_of_forall_mem hs '/' (by decide), hrest]
    rfl

section Address

variable (b : Base) (rest : List Char)

theorem trimmed_text : trimEndMatches (· == '/') b.text =
    b.scheme ++ "://".toList ++ (b.authority ++ pathText b.path) := by
  -- the last character of the authority or of the last segment is no slash
  have hlast : ∃ front c, b.authority ++ pathText b.path = front ++ [c] ∧ (c == '/') = false := by
    rcases List.eq_nil_or_concat b.path with hnil | ⟨path, s, hpath⟩
    · obtain ⟨front, c, hc⟩ := (List.eq_nil_or_concat b.authority).resolve_left b.authority_ne
      rw [List.concat_eq_append] at hc
      have hplain := (b.authority_plain c (by rw [hc]; simp)).2
      refine ⟨front, c, by rw [hnil, hc]; exact List.append_nil _, ?_⟩
      rw [beq_eq_false_iff_ne]
      rintro rfl
      exact absurd hplain (by decide)
    · rw [List.concat_eq_append] at hpath
      obtain ⟨hne, -, hchars⟩ := b.path_plain s (by rw [hpath]; simp)
      obtain ⟨front, c, rfl⟩ := (List.eq_nil_or_concat s).resolve_left hne
      rw [List.concat_eq_append] at hpath hchars
      refine ⟨b.authority ++ (pathText path ++ '/' :: front), c, ?_, beq_eq_false_iff_ne.2 (hchars c (by simp)).1⟩
      rw [hpath, pathText, List.flatMap_append]
      simp [pathText]
  obtain ⟨front, c, hfront, hc⟩ := hlast
  unfold Base.text
  rw [hfront, ← List.append_assoc, List.append_assoc _ [c], List.singleton_append,
    @trimEndMatches_append_cons _ (· == '/') _ _ hc, trimEndMatches_of_all]
  intro x hx
  rw [List.eq_of_mem_replicate hx]
  rfl

theorem forwardUrl_eq :
    forwardUrl b rest = b.scheme ++ "://".toList ++ (b.authority ++ pathText b.path ++ '/' :: rest) := by
  rw [forwardUrl, trimmed_text, List.append_assoc]

theorem mem_pathText {path : List Segment} {c : Char} (h : c ∈ pathText path) : c = '/' ∨ ∃ s ∈ path, c ∈ s := by
  obtain ⟨s, hs, hc⟩ := List.mem_flatMap.1 h
  rcases List.mem_cons.1 hc with rfl | hc
  · exact Or.inl rfl
  · exact Or.inr ⟨s, hs, hc⟩

/-- No character of the base is one the client drops or ends the path at. -/
theorem base_chars : ∀ c ∈ pathText b.path, isTabOrNewline c = false ∧ inPath c = true := by
  intro c hc
  rcases mem_pathText hc with rfl | ⟨s, hs, hcs⟩
  · decide
  · obtain ⟨-, -, hlt, hkeep⟩ := (b.path_plain s hs).2.2 c hcs
    have hascii : ∀ n < 128, keepInPath (UInt8.ofNat n) = true →
        isTabOrNewline (Char.ofNat n) = false ∧ inPath (Char.ofNat n) = true := by decide
    have := hascii c.toNat hlt hkeep
    rwa [Char.ofNat_toNat] at this

/-- The client resolves the segments of the base and then those of the caller's part. -/
theorem clientPath_forward : clientPath (forwardUrl b rest) = resolve [] (b.path ++ restSegments rest) := by
  have hscheme := scheme_chars b.isScheme
  have hkeepScheme : b.scheme.filter (fun c => !isTabOrNewline c) = b.scheme := by
    refine List.filter_eq_self.2 fun c hc => ?_
    have hc0 : isC0OrSpace c = false := by simpa [isC0OrSpace] using (hscheme.2 c hc).1
    rw [isTabOrNewline_eq_false hc0]
    rfl
  have hkeepAuthority : b.authority.filter (fun c => !isTabOrNewline c) = b.authority := by
    refine List.filter_eq_self.2 fun c hc => ?_
    rw [isTabOrNewline_eq_false (b.authority_plain c hc).1]
    rfl
  have hkeepPath : (pathText b.path).filter (fun c => !isTabOrNewline c) = pathText b.path := by
    refine List.filter_eq_self.2 fun c hc => ?_
    rw [(base_chars b c hc).1]
    rfl
  have hcolon : ∀ t : List Char, (b.scheme ++ ':' :: t).takeWhile (fun c => c != ':') = b.scheme := by
    intro t
    rw [List.takeWhile_append_of_pos fun c hc => by simpa using (hscheme.2 c hc).2.2]
    simp
  have hsep : "://".toList.filter (fun c => !isTabOrNewline c) = [':', '/', '/'] := by decide
  -- the slashes end before the authority, the authority at the slash of the path
  have hskip : ∀ t : List Char, (b.authority ++ t).dropWhile UrlPath.isSlash = b.authority ++ t := by
    intro t
    obtain ⟨c, a, ha⟩ := List.exists_cons_of_ne_nil b.authority_ne
    have hc := (b.authority_plain c (by rw [ha]; exact List.mem_cons_self)).2
    have hslash : UrlPath.isSlash c = false := by
      by_contra h
      rw [Bool.not_eq_false, UrlPath.isSlash, Bool.or_eq_true, beq_iff_eq, beq_iff_eq] at h
      rcases h with rfl | rfl
      · exact absurd hc (by decide)
      · exact absurd hc (by decide)
    rw [ha, List.cons_append, List.dropWhile_cons_of_neg (by rw [hslash]; exact Bool.false_ne_true)]
  have hauthority : ∀ t : List Char, (b.authority ++ (pathText b.path ++ '/' :: t)).dropWhile inAuthority =
      pathText b.path ++ '/' :: t := by
    intro t
    rw [List.dropWhile_append_of_pos fun c hc => (b.authority_plain c hc).2]
    cases b.path with
    | nil => rfl
    | cons s path => rfl
  have hslashes : ∀ s ∈ b.path, ∀ c ∈ s, UrlPath.isSlash c = false := by
    intro s hs c hc
    obtain ⟨hslash, hback, -⟩ := (b.path_plain s hs).2.2 c hc
    rw [UrlPath.isSlash, beq_eq_false_iff_ne.2 hslash, beq_eq_false_iff_ne.2 hback]
    rfl
  have hwritten : b.path.map (Percent.encode keepInPath) = b.path := by
    refine (List.map_congr_left fun s hs => ?_).trans (List.map_id _)
    exact Percent.encode_of_keep fun c hc => ((b.path_plain s hs).2.2 c hc).2.2
  have htext : (trimMatches isC0OrSpace (forwardUrl b rest)).filter (fun c => !isTabOrNewline c) =
      b.scheme ++ ':' :: '/' :: '/' :: (b.authority ++ (pathText b.path ++
        '/' :: (trimEndMatches isC0OrSpace rest).filter fun c => !isTabOrNewline c)) := by
    rw [forwardUrl_eq, trimMatches_url b.isScheme, trimEndMatches_append_cons (by decide)]
    simp only [List.filter_append, List.filter_cons, hkeepScheme, hsep, hkeepAuthority, hkeepPath,
      List.append_assoc, List.cons_append, List.nil_append]
    rfl
  unfold clientPath
  rw [htext]
  dsimp only
  rw [hcolon, List.drop_length_add_append, List.drop_one, List.tail_cons, List.dropWhile_cons_of_pos (by decide),
    List.dropWhile_cons_of_pos (by decide), hskip, hauthority,
    List.takeWhile_append_of_pos fun c hc => (base_chars b c hc).2, List.takeWhile_cons_of_pos (by decide)]
  unfold segments restSegments segments
  rw [splitOnP_pathText hslashes, List.map_cons, List.tail_cons, List.map_append, hwritten]

/-- The path that is asked for, from the last segment of the caller's part. -/
theorem clientPath_concat {init : List Segment} {last : Segment} (h : restSegments rest = init ++ [last]) :
    clientPath (forwardUrl b rest) = finish (walk b.path init) last := by
  have hbase : walk [] b.path = b.path := walk_plain fun s hs => (b.path_plain s hs).2.1
  rw [clientPath_forward, h, ← List.append_assoc, resolve_concat, walk_append, hbase]

theorem restSegments_ne_nil : restSegments rest ≠ [] := by
  unfold restSegments segments
  rw [Ne, List.map_eq_nil_iff]
  exact List.splitOnP_ne_nil _ _

end Address

/-! ## What the client asks for -/

theorem clientPath_plain (b : Base) {rest : List Char} {ss : List Segment} {s : Segment}
    (h : restSegments rest = ss ++ [s]) (hss : ∀ r ∈ ss, isPlain r = true) (hs : isPlain s = true) (hne : s ≠ []) :
    clientPath (forwardUrl b rest) = b.path ++ (ss ++ [s]) := by
  rw [clientPath_concat b rest h, walk_plain hss, ← List.append_assoc]
  exact (finish_eq_concat_iff hne).2 ⟨rfl, rfl, hs⟩

/-- What `path_allowed` lets through of the other families. -/
def EXACT : List (List Char × List Char) :=
  [("image".toList, "generate".toList), ("image".toList, "health".toList), ("image".toList, "model-info".toList),
    ("asr".toList, "transcribe".toList), ("asr".toList, "api/model-info".toList), ("tts".toList, "tts".toList),
    ("tts".toList, "clone".toList), ("tts".toList, "upload_reference".toList), ("tts".toList, "api/model-info".toList)]

theorem mem_exact {kind rest : List Char} (h : pathAllowed kind rest = true) (hvideo : kind ≠ "video".toList) :
    (kind, rest) ∈ EXACT := by
  have hall : (∀ r ∈ ["generate".toList, "health".toList, "model-info".toList], ("image".toList, r) ∈ EXACT) ∧
      (∀ r ∈ ["transcribe".toList, "api/model-info".toList], ("asr".toList, r) ∈ EXACT) ∧
      ∀ r ∈ ["tts".toList, "clone".toList, "upload_reference".toList, "api/model-info".toList],
        ("tts".toList, r) ∈ EXACT := by decide
  unfold pathAllowed at h
  by_cases himage : kind = "image".toList
  · subst himage
    rw [if_pos rfl, decide_eq_true_eq] at h
    exact hall.1 rest h
  · rw [if_neg himage] at h
    by_cases hasr : kind = "asr".toList
    · subst hasr
      rw [if_pos rfl, decide_eq_true_eq] at h
      exact hall.2.1 rest h
    · rw [if_neg hasr] at h
      by_cases htts : kind = "tts".toList
      · subst htts
        rw [if_pos rfl, decide_eq_true_eq] at h
        exact hall.2.2 rest h
      · rw [if_neg htts, if_neg hvideo] at h
        cases h

theorem exact_plain : ∀ e ∈ EXACT, restSegments e.2 ∈ exactPaths e.1 ∧
    ∀ s ∈ restSegments e.2, isPlain s = true ∧ s ≠ [] := by
  decide +kernel

/-- The exact entries of the other families are asked for as they are. -/
theorem asks_of_exact (b : Base) {kind rest : List Char} (h : pathAllowed kind rest = true)
    (hvideo : kind ≠ "video".toList) : AsksDocumented b kind (forwardUrl b rest) := by
  obtain ⟨hmem, hplain⟩ := exact_plain _ (mem_exact h hvideo)
  obtain ⟨init, last, hrest⟩ := (List.eq_nil_or_concat (restSegments rest)).resolve_left (restSegments_ne_nil rest)
  rw [List.concat_eq_append] at hrest
  refine ⟨restSegments rest, Or.inl hmem, ?_⟩
  dsimp only at hplain
  rw [hrest] at hplain ⊢
  obtain ⟨hlast, hne⟩ := hplain last (List.mem_append_right _ (List.mem_singleton_self last))
  exact clientPath_plain b hrest (fun s hs => (hplain s (List.mem_append_left _ hs)).1) hlast hne

theorem asks_video_iff (b : Base) (rest : List Char) :
    AsksDocumented b "video".toList (forwardUrl b rest) ↔ LeadsToVideo b.path (restSegments rest) := by
  obtain ⟨init, last, hrest⟩ := (List.eq_nil_or_concat (restSegments rest)).resolve_left (restSegments_ne_nil rest)
  rw [List.concat_eq_append] at hrest
  have hpath := clientPath_concat b rest hrest
  have hone : ∀ s : Segment, s ≠ [] → isPlain s = true →
      (clientPath (forwardUrl b rest) = b.path ++ [s] ↔ Keeps b.path init ∧ last = s) := by
    intro s hne hs
    rw [hpath, finish_eq_concat_iff hne, walk_eq_self_iff]
    exact ⟨fun h => ⟨h.1, h.2.1⟩, fun h => ⟨h.1, h.2, hs⟩⟩
  have htwo : ∀ x : Segment, x ≠ [] →
      (clientPath (forwardUrl b rest) = b.path ++ [history, x] ↔
        ∃ u v, init = u ++ history :: v ∧ Keeps b.path u ∧ Keeps (b.path ++ [history]) v ∧ last = x ∧ isPlain x = true) := by
    intro x hne
    have hsplit : b.path ++ [history, x] = b.path ++ [history] ++ [x] := by rw [List.append_assoc]; rfl
    rw [hpath, hsplit, finish_eq_concat_iff hne, walk_eq_concat_iff]
    constructor
    · rintro ⟨⟨u, v, hinit, -, hu, hv⟩, hlast, hx⟩
      exact ⟨u, v, hinit, hu, hv, hlast, hx⟩
    · rintro ⟨u, v, hinit, hu, hv, hlast, hx⟩
      exact ⟨⟨u, v, hinit, by decide, hu, hv⟩, hlast, hx⟩
  unfold LeadsToVideo
  rw [hrest]
  constructor
  · rintro ⟨path, hexact | ⟨-, x, hne, rfl⟩, hasks⟩
    · have hvideo : path ∈ [["prompt".toList], ["view".toList]] := hexact
      rcases List.mem_pair.1 hvideo with rfl | rfl
      · obtain ⟨hu, rfl⟩ := (hone _ (by decide) (by decide)).1 hasks
        exact Or.inl ⟨init, hu, Or.inl rfl⟩
      · obtain ⟨hu, rfl⟩ := (hone _ (by decide) (by decide)).1 hasks
        exact Or.inl ⟨init, hu, Or.inr rfl⟩
    · obtain ⟨u, v, rfl, hu, hv, rfl, hx⟩ := (htwo x hne).1 hasks
      exact Or.inr ⟨u, v, last, hu, hv, hne, hx, rfl⟩
  · have hexact : ["prompt".toList] ∈ exactPaths "video".toList ∧ ["view".toList] ∈ exactPaths "video".toList := by decide
    rintro (⟨u, hu, h | h⟩ | ⟨u, v, x, hu, hv, hne, hx, h⟩)
    · obtain ⟨rfl, hlast⟩ := List.append_inj' h rfl
      exact ⟨_, Or.inl hexact.1, (hone _ (by decide) (by decide)).2 ⟨hu, (List.cons.inj hlast).1⟩⟩
    · obtain ⟨rfl, hlast⟩ := List.append_inj' h rfl
      exact ⟨_, Or.inl hexact.2, (hone _ (by decide) (by decide)).2 ⟨hu, (List.cons.inj hlast).1⟩⟩
    · obtain ⟨rfl, hlast⟩ := List.append_inj' h rfl
      exact ⟨_, Or.inr ⟨rfl, x, hne, rfl⟩, (htwo x hne).2 ⟨u, v, rfl, hu, hv, (List.cons.inj hlast).1, hx⟩⟩

theorem apiMedia_ok {env : Sidecars} {kind rest url : List Char} (h : apiMedia env kind rest = .ok url) :
    ∃ b, upstream env kind = some b ∧ pathAllowed kind rest = true ∧ url = forwardUrl b rest := by
  unfold apiMedia at h
  cases hb : upstream env kind with
  | none =>
    rw [hb] at h
    cases h
  | some b =>
    rw [hb] at h
    dsimp only at h
    split_ifs at h with hallowed
    cases h
    exact ⟨b, rfl, hallowed, rfl⟩

/-- A call that is not refused asks its sidecar for a documented path exactly if it is not a
video call, or its path leads to a documented one but for what dot segments take away. -/
theorem documented_iff (env : Sidecars) (kind rest url : List Char) (h : apiMedia env kind rest = .ok url) :
    ∃ b, upstream env kind = some b ∧
      (AsksDocumented b kind url ↔ (kind = "video".toList → LeadsToVideo b.path (restSegments rest))) := by
  obtain ⟨b, hb, hallowed, rfl⟩ := apiMedia_ok h
  refine ⟨b, hb, ?_⟩
  by_cases hvideo : kind = "video".toList
  · subst hvideo
    rw [asks_video_iff]
    exact ⟨fun h _ => h, fun h => h rfl⟩
  · exact ⟨fun _ hv => absurd hv hvideo, fun _ => asks_of_exact b hallowed hvideo⟩

/-! ## The gateway's token -/

/-- The bytes are compared to the longer end, a missing one as zero; of the lengths only the low byte is. -/
def tokenOk (given expected : List UInt8) : Bool :=
  if expected = [] then false
  else
    let lengths := UInt8.ofNat (given.length ^^^ expected.length)
    let diff := (List.range (max given.length expected.length)).foldl
      (fun diff i => diff ||| (given.getD i 0 ^^^ expected.getD i 0)) lengths
    diff == 0

/-- Nothing is left over only if there was no difference anywhere. -/
theorem foldl_or_eq_zero_iff (f : Nat → UInt8) (is : List Nat) (diff : UInt8) :
    is.foldl (fun diff i => diff ||| f i) diff = 0 ↔ diff = 0 ∧ ∀ i ∈ is, f i = 0 := by
  induction is generalizing diff with
  | nil =>
    rw [List.foldl_nil]
    exact (and_iff_left (List.forall_mem_nil _)).symm
  | cons i is ih => rw [List.foldl_cons, ih, UInt8.or_eq_zero_iff, List.forall_mem_cons, and_assoc]

/-- Where one is at its end, the other has a byte that is not zero. -/
theorem length_le_of_padded {a b : List UInt8} (hb : 0 ∉ b)
    (h : ∀ i < max a.length b.length, a.getD i 0 = b.getD i 0) : b.length ≤ a.length := by
  by_contra hlt
  have hi : a.length < b.length := Nat.lt_of_not_le hlt
  have hend := h a.length (Nat.lt_of_lt_of_le hi (Nat.le_max_right _ _))
  rw [List.getD_eq_default _ _ (Nat.le_refl _), List.getD_eq_getElem _ _ hi] at hend
  rw [hend] at hb
  exact hb (List.getElem_mem hi)

theorem tokenOk_iff {given expected : List UInt8} (hgiven : 0 ∉ given) (hexpected : 0 ∉ expected) :
    tokenOk given expected = true ↔ expected ≠ [] ∧ given = expected := by
  by_cases hnil : expected = []
  · simp [tokenOk, hnil]
  · rw [tokenOk, if_neg hnil, beq_iff_eq, foldl_or_eq_zero_iff]
    constructor
    · rintro ⟨-, hsame⟩
      have hpad : ∀ i < max given.length expected.length, given.getD i 0 = expected.getD i 0 := by
        intro i hi
        exact UInt8.xor_eq_zero_iff.1 (hsame i (List.mem_range.2 hi))
      have hpad' : ∀ i < max expected.length given.length, expected.getD i 0 = given.getD i 0 := by
        intro i hi
        rw [Nat.max_comm] at hi
        exact (hpad i hi).symm
      have hlen := Nat.le_antisymm (length_le_of_padded hgiven hpad') (length_le_of_padded hexpected hpad)
      refine ⟨hnil, List.ext_getElem hlen ?_⟩
      intro i h h'
      have hi := hpad i (Nat.lt_of_lt_of_le h (Nat.le_max_left _ _))
      rwa [List.getD_eq_getElem _ _ h, List.getD_eq_getElem _ _ h'] at hi
    · rintro ⟨-, rfl⟩
      refine ⟨?_, ?_⟩
      · rw [Nat.xor_self]
        rfl
      · intro i _
        exact UInt8.xor_self

/-- A token that repeats another one 256 bytes longer is another one. -/
theorem tokenOk_longer : ¬ tokenOk (List.replicate 262 115) (List.replicate 6 115) = true := by
  have hplain : ∀ n, (0 : UInt8) ∉ List.replicate n 115 := by
    intro n hmem
    exact absurd (List.eq_of_mem_replicate hmem) (by decide)
  intro h
  have hsame := ((tokenOk_iff (hplain 262) (hplain 6)).1 h).2
  have hlen := congrArg List.length hsame
  rw [List.length_replicate, List.length_replicate] at hlen
  exact absurd hlen (by decide)

/-! ## Two calls -/

def sampleBase (host : String) (h : host.toList ≠ [] ∧ ∀ c ∈ host.toList, isC0OrSpace c = false ∧ inAuthority c = true) :
    Base where
  scheme := "http".toList
  authority := host.toList
  path := []
  slashes := 0
  isScheme := by decide
  authority_ne := h.1
  authority_plain := h.2
  path_plain := List.forall_mem_nil _

def sampleSidecars : Sidecars where
  image := sampleBase "flux:8005" ⟨by decide, Text.forall_of_all (by decide)⟩
  asr := sampleBase "asr:8006" ⟨by decide, Text.forall_of_all (by decide)⟩
  tts := sampleBase "voice:8004" ⟨by decide, Text.forall_of_all (by decide)⟩
  video := sampleBase "host.docker.internal:8188" ⟨by decide, Text.forall_of_all (by decide)⟩

theorem documented_history :
    ∃ b, upstream sampleSidecars "video".toList = some b ∧
      (AsksDocumented b "video".toList "http://host.docker.internal:8188/history/7f3a".toList ↔
        ("video".toList = "video".toList → LeadsToVideo b.path (restSegments "history/7f3a".toList))) :=
  documented_iff sampleSidecars "video".toList "history/7f3a".toList _ (by decide)

/-- The prefix rule lets two dots through, and the client asks for another route of the server. -/
theorem not_documented_dots :
    ¬ ∀ url, apiMedia sampleSidecars "video".toList "history/../queue".toList = .ok url →
      AsksDocumented sampleSidecars.video "video".toList url := by
  intro hall
  obtain ⟨path, hdoc, hasks⟩ := hall _ (show _ = Except.ok "http://host.docker.internal:8188/history/../queue".toList by decide)
  have hqueue : clientPath "http://host.docker.internal:8188/history/../queue".toList = ["queue".toList] := by
    decide +kernel
  rw [hqueue] at hasks
  have hpath : ["queue".toList] = path := hasks
  subst hpath
  rcases hdoc with hexact | ⟨-, x, -, hx⟩
  · exact absurd hexact (by decide)
  · exact absurd hx (by simp)

end Portal.MediaProxy
