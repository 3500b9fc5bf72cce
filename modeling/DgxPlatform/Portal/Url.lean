import DgxPlatform.Lib.Text
import Mathlib.Data.List.TakeWhile

/-! # The host the SSRF guard checks and the host the client contacts

`urlParts` is the hand-written imitation of `urlparse` that the guard reads its
host with; the HTTP client reads the same text with a WHATWG parser. The parser
trims C0 controls and spaces, drops tabs and line breaks, skips the slashes and
backslashes after the scheme and ends the authority at a backslash too. What it
makes of the host's text (IDNA, addresses) is a parameter, `HostParser`.

`guard_sees_client_host_iff` says exactly when the two hosts agree: the text after the
last `@` holds nothing the client's parser reads differently, and no backslash
in the userinfo ends the client's authority before that `@`.
-/

namespace Portal.Url

open Text

/-! ## The guard -/

/-- `find(['/', '?', '#'])`. -/
def endsNetloc (c : Char) : Bool := c == '/' || c == '?' || c == '#'

def netlocOf (rest : List Char) : List Char := rest.takeWhile fun c => !endsNetloc c

/-- `rsplit_once('@')`: what follows the last `@`, or everything. -/
def hostport (netloc : List Char) : List Char :=
  match rsplitOnce '@' netloc with
  | some (_, h) => h
  | none => netloc

/-- What stands before the last `@`, if there is one. -/
def userinfo (netloc : List Char) : List Char :=
  match rsplitOnce '@' netloc with
  | some (user, _) => user
  | none => []

def hostText : List Char → List Char
  | '[' :: stripped => stripped.takeWhile fun c => c != ']'
  | t => t.takeWhile fun c => c != ':'

def isScheme (s : List Char) : Bool :=
  match s with
  | [] => false
  | c :: _ => c.isAlpha && s.all fun d => d.isAlphanum || d == '+' || d == '-' || d == '.'

structure UrlParts where
  scheme : List Char
  host : List Char
  path : List Char
deriving DecidableEq, Repr

/-- `url_parts`: what `urlparse` gives this code. -/
def urlParts (L : Lowercase) (url : List Char) : UrlParts :=
  match splitOnce "://".toList url with
  | none => ⟨[], [], []⟩
  | some (scheme, rest) =>
      -- `urlparse` gives no scheme to a text that is none
      if isScheme scheme then
        let after := rest.drop (netlocOf rest).length
        ⟨L.lower scheme, L.lower (hostText (hostport (netlocOf rest))),
          after.takeWhile fun c => !(c == '?' || c == '#')⟩
      else ⟨[], [], []⟩

def BLOCKED_HOSTNAMES : List (List Char) :=
  ["dgx-portal", "dgx-portal-frontend", "host.docker.internal", "litellm", "localhost", "postgres",
    "vllm-runner"].map String.toList

/-- `str::parse::<u16>`: digits, with an optional plus sign. -/
def parseU16 (t : List Char) : Option Nat :=
  let digits := if t.head? = some '+' then t.tail else t
  let n := digits.foldl (fun n d => 10 * n + (d.toNat - 48)) 0
  if digits ≠ [] ∧ digits.all Char.isDigit = true ∧ n ≤ 65535 then some n else none

/-- `url_port`: the explicit port of an https URL, if any. -/
def urlPort (url : List Char) : Option Nat :=
  (splitOnce "://".toList url).bind fun (_, rest) =>
    let hp := hostport (netlocOf rest)
    let port := if hp.head? = some '[' then rsplitOnceText "]:".toList hp else rsplitOnce ':' hp
    port.bind fun (_, p) => parseU16 p

/-- `validated_target`: https only, never an internal host name nor the directory
server, and every resolved address public; the first one is pinned. `lookup` is
the resolver, `isBlockedIp` the test of an address. -/
def validatedTarget {Addr : Type} (L : Lowercase) (lookup : List Char → Nat → Option (List Addr))
    (isBlockedIp : Addr → Bool) (ldapHost url : List Char) : Except String (List Char × Addr) :=
  let host := (urlParts L url).host
  if (urlParts L url).scheme ≠ "https".toList then .error "L'URL doit être en https://."
  else if host = [] then .error "URL invalide (pas d'hôte)."
  else if host ∈ BLOCKED_HOSTNAMES ∨ (ldapHost ≠ [] ∧ host = ldapHost) then
    .error "Cet hôte n'est pas autorisé."
  else
    match lookup host ((urlPort url).getD 443) with
    | none => .error "Nom d'hôte introuvable."
    | some addrs =>
        if addrs.any isBlockedIp then
          .error "Cette adresse pointe vers un réseau interne/privé, refusée."
        else
          match addrs.head? with
          | some a => .ok (host, a)
          | none => .error "Nom d'hôte introuvable."

/-! ## The client -/

def isC0OrSpace (c : Char) : Bool := c.toNat ≤ 0x20

def isTabOrNewline (c : Char) : Bool := c == '\t' || c == '\n' || c == '\r'

def isSlash (c : Char) : Bool := c == '/' || c == '\\'

/-- What the client's parser makes of the text of a host, in brackets or not:
`none` when it refuses it. A text whose lower case is ASCII becomes its lower
case; a host is ASCII, without controls, spaces or backslashes. -/
structure HostParser (L : Lowercase) where
  parse : Bool → List Char → Option (List Char)
  lowered : ∀ b t h, parse b t = some h → IsAscii (L.lower t) → h = L.lower t
  clean : ∀ b t h, parse b t = some h → ∀ c ∈ h, isC0OrSpace c = false ∧ c ≠ '\\' ∧ c.toNat < 128

/-- A port: nothing, or a colon and digits, at most 65535. -/
def portOk : List Char → Bool
  | [] => true
  | ':' :: digits =>
      digits.all Char.isDigit && digits.foldl (fun n d => 10 * n + (d.toNat - 48)) 0 ≤ 65535
  | _ => false

variable {L : Lowercase}

/-- The host of an authority: after the last `@`, in brackets or before the port. -/
def HostParser.authorityHost (W : HostParser L) (authority : List Char) : Option (List Char) :=
  match hostport authority with
  | '[' :: t =>
      match t.dropWhile fun c => c != ']' with
      | ']' :: port =>
          if portOk port ∧ hostText ('[' :: t) ≠ [] then W.parse true (hostText ('[' :: t)) else none
      | _ => none
  | t =>
      if portOk (t.dropWhile fun c => c != ':') ∧ hostText t ≠ [] then W.parse false (hostText t)
      else none

/-- The host the client contacts for an https URL. -/
def HostParser.hostOf (W : HostParser L) (url : List Char) : Option (List Char) :=
  let t := (trimMatches isC0OrSpace url).filter fun c => !isTabOrNewline c
  let scheme := t.takeWhile fun c => c != ':'
  if scheme.map Char.toLower = "https".toList then
    let rest := (t.drop (scheme.length + 1)).dropWhile isSlash
    W.authorityHost (rest.takeWhile fun c => !(endsNetloc c || c == '\\'))
  else none

/-! ## The texts the client reads -/

/-- The userinfo as the client reads it, if the authority begins with it: without
tabs and line breaks, and without the slashes skipped after the scheme. -/
def clientUserinfo (user : List Char) : List Char :=
  (user.filter fun c => !isTabOrNewline c).dropWhile isSlash

/-- The characters of the client's authority. -/
def inAuthority (c : Char) : Bool := !(endsNetloc c || c == '\\')

/-- The client's authority, from what follows `://`. -/
def clientAuthority (rest : List Char) : List Char :=
  (((trimEndMatches isC0OrSpace rest).filter fun c => !isTabOrNewline c).dropWhile
    isSlash).takeWhile inAuthority

variable {c : Char}

theorem lt_of_schemeChar (h : (c.isAlphanum || c == '+' || c == '-' || c == '.') = true) :
    0x20 < c.toNat ∧ c.toNat < 128 ∧ c ≠ ':' := by
  -- the client cuts the scheme at the first colon
  have hcolon : (':'.isAlphanum || ':' == '+' || ':' == '-' || ':' == '.') = false := by decide
  have hne : c ≠ ':' := by
    rintro rfl
    rw [hcolon] at h
    cases h
  simp only [Bool.or_eq_true, beq_iff_eq] at h
  rcases h with ((h | rfl) | rfl) | rfl
  · have hrange := toNat_of_isAlphanum h
    exact ⟨by omega, by omega, hne⟩
  all_goals decide

theorem scheme_chars {scheme : List Char} (h : isScheme scheme = true) :
    scheme ≠ [] ∧ ∀ c ∈ scheme, 0x20 < c.toNat ∧ c.toNat < 128 ∧ c ≠ ':' := by
  cases scheme with
  | nil => cases h
  | cons d t =>
    refine ⟨List.cons_ne_nil d t, fun c hc => ?_⟩
    have hall := (Bool.and_eq_true _ _ ▸ h).2
    exact lt_of_schemeChar (List.all_eq_true.1 hall c hc)

theorem isTabOrNewline_eq_false (h : isC0OrSpace c = false) : isTabOrNewline c = false := by
  simp only [isTabOrNewline, Bool.or_eq_false_iff, beq_eq_false_iff_ne]
  refine ⟨⟨?_, ?_⟩, ?_⟩
  all_goals
    rintro rfl
    exact absurd h (by decide)

theorem trimMatches_url {scheme rest : List Char} (h : isScheme scheme = true) :
    trimMatches isC0OrSpace (scheme ++ "://".toList ++ rest) =
      scheme ++ "://".toList ++ trimEndMatches isC0OrSpace rest := by
  rcases scheme_chars h with ⟨hne, hchars⟩
  have hlead : (scheme ++ "://".toList ++ rest).dropWhile isC0OrSpace =
      scheme ++ "://".toList ++ rest := by
    cases scheme with
    | nil => exact absurd rfl hne
    | cons c t =>
      have hc : isC0OrSpace c = false := by
        have := (hchars c List.mem_cons_self).1
        simpa [isC0OrSpace] using this
      simp [hc]
  unfold trimMatches
  rw [hlead]
  have hsplit : scheme ++ "://".toList ++ rest = (scheme ++ [':', '/']) ++ '/' :: rest := by simp
  rw [hsplit, trimEndMatches_append_cons (by decide)]
  simp

/-- On an https URL the client's host is the host of its authority. -/
theorem hostOf_url (W : HostParser L) {scheme rest : List Char} (h : isScheme scheme = true)
    (hs : L.lower scheme = "https".toList) :
    W.hostOf (scheme ++ "://".toList ++ rest) = W.authorityHost (clientAuthority rest) := by
  rcases scheme_chars h with ⟨-, hchars⟩
  have hlow : scheme.map Char.toLower = "https".toList := by
    rw [← hs, L.ascii scheme fun c hc => (hchars c hc).2.1]
  -- a scheme holds nothing to trim or to drop
  have hkeep : scheme.filter (fun c => !isTabOrNewline c) = scheme := by
    refine List.filter_eq_self.2 fun c hc => ?_
    have hc0 : isC0OrSpace c = false := by simpa [isC0OrSpace] using (hchars c hc).1
    simp [isTabOrNewline_eq_false hc0]
  have hcolon : ∀ t : List Char, (scheme ++ ':' :: t).takeWhile (fun c => c != ':') = scheme := by
    intro t
    rw [List.takeWhile_append_of_pos fun c hc => by simpa using (hchars c hc).2.2]
    simp
  unfold HostParser.hostOf clientAuthority
  rw [trimMatches_url h, List.filter_append, List.filter_append, hkeep]
  have hsep : "://".toList.filter (fun c => !isTabOrNewline c) = [':', '/', '/'] := by decide
  simp only [hsep, List.append_assoc, List.cons_append, List.nil_append, hcolon, hlow, if_true,
    ← List.drop_drop, List.drop_left, List.drop_one, List.tail_cons]
  -- the two slashes of `://` are skipped with any that follow
  simp only [List.dropWhile_cons, show isSlash '/' = true from rfl, if_true]
  rfl

/-! ## Where the host stands -/

/-- `lead` the opening bracket or nothing, `tail` what follows the host `t`. -/
def HostShape (lead t tail : List Char) : Prop :=
  (lead = ['['] ∧ ']' ∉ t ∧ ∀ c ∈ tail.head?, c = ']') ∨
    (lead = [] ∧ t.head? ≠ some '[' ∧ ':' ∉ t ∧ ∀ c ∈ tail.head?, c = ':')

theorem hostText_plain {hp : List Char} (h : hp.head? ≠ some '[') :
    hostText hp = hp.takeWhile fun c => c != ':' := by
  unfold hostText
  split
  · exact absurd rfl h
  · rfl

theorem head?_dropWhile_ne (e : Char) (t : List Char) : ∀ c ∈ (t.dropWhile fun c => c != e).head?, c = e := by
  intro c hc
  have hstop := List.head?_dropWhile_not (fun c => c != e) t
  rw [Option.mem_def.1 hc] at hstop
  simpa using hstop

theorem not_mem_takeWhile_ne (e : Char) (t : List Char) : e ∉ t.takeWhile fun c => c != e := by
  intro hmem
  simpa using List.mem_takeWhile_imp hmem

theorem hostText_shape (hp : List Char) :
    ∃ lead tail, hp = lead ++ hostText hp ++ tail ∧ HostShape lead (hostText hp) tail := by
  -- in brackets up to the closing one, else up to the port
  by_cases hbr : hp.head? = some '['
  · rcases List.head?_eq_some_iff.1 hbr with ⟨t, rfl⟩
    refine ⟨['['], t.dropWhile fun c => c != ']', by simp [hostText], Or.inl ⟨rfl, ?_, ?_⟩⟩
    · exact not_mem_takeWhile_ne ']' t
    · exact head?_dropWhile_ne ']' t
  · rw [hostText_plain hbr]
    refine ⟨[], hp.dropWhile fun c => c != ':', by simp, Or.inr ⟨rfl, ?_, ?_, ?_⟩⟩
    · cases hp with
      | nil => simp
      | cons d t =>
        by_cases hd : d = ':'
        · simp [hd]
        · simpa [hd] using hbr
    · exact not_mem_takeWhile_ne ':' hp
    · exact head?_dropWhile_ne ':' hp

theorem hostText_of_shape {lead t tail : List Char} (h : HostShape lead t tail) (hne : t ≠ []) :
    hostText (lead ++ t ++ tail) = t := by
  have htake : ∀ e : Char, e ∉ t → (∀ c ∈ tail.head?, c = e) →
      (t ++ tail).takeWhile (fun c => c != e) = t := by
    intro e he htail
    rw [List.takeWhile_append_of_pos fun c hc => by
      simpa using fun hce : c = e => he (hce ▸ hc)]
    cases tail with
    | nil => simp
    | cons d r =>
      have hd : d = e := htail d rfl
      simp [hd]
  rcases h with ⟨rfl, hbr, htail⟩ | ⟨rfl, hhead, hcol, htail⟩
  · exact htake ']' hbr htail
  · have hplain : ([] ++ t ++ tail).head? ≠ some '[' := by
      cases t with
      | nil => exact absurd rfl hne
      | cons d r => simpa using hhead
    rw [hostText_plain hplain]
    exact htake ':' hcol htail

theorem authorityHost_parse (W : HostParser L) {a h : List Char} (ha : W.authorityHost a = some h) :
    ∃ b, W.parse b (hostText (hostport a)) = some h := by
  unfold HostParser.authorityHost at ha
  split at ha
  · next t heq =>
      split at ha
      · split at ha
        · exact ⟨true, by rw [heq]; exact ha⟩
        · cases ha
      · cases ha
  · split at ha
    · exact ⟨false, ha⟩
    · cases ha

/-! ## The client's authority around a host both read alike -/

theorem inAuthority_iff : inAuthority c = true ↔ endsNetloc c = false ∧ c ≠ '\\' := by
  simp [inAuthority]

theorem dropWhile_append_block {p : Char → Bool} {a m b : List Char} (hne : m ≠ [])
    (hm : ∀ c ∈ m, p c = false) :
    (a ++ m ++ b).dropWhile p = a.dropWhile p ++ m ++ b := by
  cases m with
  | nil => exact absurd rfl hne
  | cons c m =>
    have hc : p c = false := hm c List.mem_cons_self
    rw [List.append_assoc, List.dropWhile_append]
    split
    · next hall =>
        have hnil : a.dropWhile p = [] := by simpa using hall
        simp [hc, hnil]
    · simp

/-- What the client drops from the authority's end, it drops behind the host. -/
theorem client_prefix {pre m t : List Char} (hne : m ≠ [])
    (hm : ∀ c ∈ m, isC0OrSpace c = false ∧ isSlash c = false) :
    ((trimEndMatches isC0OrSpace (pre ++ m ++ t)).filter fun c => !isTabOrNewline c).dropWhile
        isSlash =
      clientUserinfo pre ++ m ++
        (trimEndMatches isC0OrSpace t).filter fun c => !isTabOrNewline c := by
  have hkeep : m.filter (fun c => !isTabOrNewline c) = m :=
    List.filter_eq_self.2 fun c hc => by simp [isTabOrNewline_eq_false (hm c hc).1]
  rw [trimEndMatches_append_block hne fun c hc => (hm c hc).1, List.filter_append,
    List.filter_append, hkeep, dropWhile_append_block hne fun c hc => (hm c hc).2]
  rfl

/-- Behind the host, the client's authority only has characters of the netloc. -/
theorem mem_of_mem_clientTail {g tail after : List Char} (hg : g <+: tail ++ after)
    (hafter : ∀ e ∈ after.head?, endsNetloc e = true)
    (hc : c ∈ (g.filter fun c => !isTabOrNewline c).takeWhile inAuthority) : c ∈ tail := by
  induction tail generalizing g with
  | nil =>
    cases g with
    | nil => simp at hc
    | cons d g =>
      -- the client's authority stops at the character that ends the netloc
      have hd : after.head? = some d := by
        rcases hg with ⟨r, hr⟩
        rw [List.nil_append] at hr
        rw [← hr]
        rfl
      have hend : endsNetloc d = true := hafter d hd
      have htab : isTabOrNewline d = false := by
        by_contra htab
        have hd' : d = '/' ∨ d = '?' ∨ d = '#' := by simpa [endsNetloc, or_assoc] using hend
        rcases hd' with rfl | rfl | rfl <;> exact htab (by decide)
      simp [htab, inAuthority, hend] at hc
  | cons d tail ih =>
    cases g with
    | nil => simp at hc
    | cons d' g =>
      rcases List.cons_prefix_cons.1 hg with ⟨rfl, hg'⟩
      rw [List.filter_cons] at hc
      split at hc
      · rw [List.takeWhile_cons] at hc
        split at hc
        · rcases List.mem_cons.1 hc with rfl | hc
          · exact List.mem_cons_self
          · exact List.mem_cons_of_mem _ (ih hg' hc)
        · cases hc
      · exact List.mem_cons_of_mem _ (ih hg' hc)

/-- Behind the host, the client's authority begins as the netloc does. -/
theorem head_clientTail {tail after : List Char} {e : Char} (htail : ∀ c ∈ tail.head?, c = e)
    (he : isC0OrSpace e = false) (hafter : ∀ e ∈ after.head?, endsNetloc e = true) :
    ∀ c ∈ (((trimEndMatches isC0OrSpace (tail ++ after)).filter fun c =>
      !isTabOrNewline c).takeWhile inAuthority).head?, c = e := by
  intro c hc
  cases tail with
  | nil =>
    have hmem : c ∈ ([] : List Char) :=
      mem_of_mem_clientTail (trimEndMatches_isPrefix _ _) hafter (List.mem_of_mem_head? hc)
    cases hmem
  | cons d z =>
    obtain rfl : d = e := htail d rfl
    have htrim := trimEndMatches_append_cons (p := isC0OrSpace) (a := []) (b := z ++ after) he
    rw [List.nil_append, List.nil_append] at htrim
    rw [List.cons_append, htrim, List.filter_cons, isTabOrNewline_eq_false he] at hc
    simp only [Bool.not_false, if_true, List.takeWhile_cons] at hc
    split at hc
    · simpa using hc.symm
    · cases hc

theorem netlocOf_append (rest : List Char) :
    ∃ after, rest = netlocOf rest ++ after ∧ ∀ e ∈ after.head?, endsNetloc e = true := by
  refine ⟨rest.dropWhile fun c => !endsNetloc c, by simp [netlocOf], fun e he => ?_⟩
  have hstop := List.head?_dropWhile_not (fun c => !endsNetloc c) rest
  rw [Option.mem_def.1 he] at hstop
  simpa using hstop

/-- The netloc around its host: `pre` is the userinfo with its `@`, or nothing. -/
theorem netloc_shape (netloc : List Char) :
    ∃ pre lead tail, netloc = pre ++ (lead ++ hostText (hostport netloc)) ++ tail ∧
      HostShape lead (hostText (hostport netloc)) tail ∧
      '@' ∉ lead ++ hostText (hostport netloc) ++ tail ∧
      (pre = [] ∧ userinfo netloc = [] ∨ pre = userinfo netloc ++ ['@']) := by
  rcases hostText_shape (hostport netloc) with ⟨lead, tail, heq, hshape⟩
  cases hr : rsplitOnce '@' netloc with
  | none =>
    have hhp : hostport netloc = netloc := by simp [hostport, hr]
    have hui : userinfo netloc = [] := by simp [userinfo, hr]
    refine ⟨[], lead, tail, ?_, hshape, ?_, Or.inl ⟨rfl, hui⟩⟩
    · rw [List.nil_append, ← heq, hhp]
    · rw [← heq, hhp]
      exact rsplitOnce_eq_none.1 hr
  | some r =>
    rcases r with ⟨user, hp⟩
    have hhp : hostport netloc = hp := by simp [hostport, hr]
    have hui : userinfo netloc = user := by simp [userinfo, hr]
    rcases rsplitOnce_eq_some hr with ⟨hsplit, hat⟩
    rw [hhp] at heq hshape ⊢
    refine ⟨user ++ ['@'], lead, tail, ?_, hshape, ?_, Or.inr (by rw [hui])⟩
    · calc netloc = user ++ '@' :: hp := hsplit
        _ = user ++ '@' :: (lead ++ hostText hp ++ tail) := by rw [← heq]
        _ = user ++ ['@'] ++ (lead ++ hostText hp) ++ tail := by simp
    · rw [← heq]
      exact hat

/-- What the guard reads as host text, holding nothing the client drops or stops
at. -/
def PlainHost (netloc : List Char) : Prop :=
  ∀ c ∈ hostText (hostport netloc), isC0OrSpace c = false ∧ c ≠ '\\'

instance (netloc : List Char) : Decidable (PlainHost netloc) :=
  List.decidableBAll (fun c : Char => isC0OrSpace c = false ∧ c ≠ '\\') (hostText (hostport netloc))

theorem clientUserinfo_append_at (user : List Char) :
    clientUserinfo (user ++ ['@']) = clientUserinfo user ++ ['@'] := by
  have hat : ∀ c ∈ ['@'], isSlash c = false := by
    intro c hc
    rw [List.mem_singleton.1 hc]
    decide
  have hblock := dropWhile_append_block (a := user.filter fun c => !isTabOrNewline c) (b := [])
    (List.cons_ne_nil '@' []) hat
  simp only [List.append_nil] at hblock
  unfold clientUserinfo
  rw [List.filter_append]
  exact hblock

theorem mem_of_mem_clientUserinfo {user : List Char} (h : c ∈ clientUserinfo user) : c ∈ user :=
  List.mem_of_mem_filter (List.dropWhile_suffix isSlash |>.subset h)

variable {rest : List Char}

/-- Around a plain host, the client reads the same userinfo and the same host,
and the rest of its authority comes from behind the host. -/
theorem client_shape (hplain : PlainHost (netlocOf rest)) (hne : hostText (hostport (netlocOf rest)) ≠ []) :
    ∃ pre m g, clientAuthority rest = (clientUserinfo pre ++ m ++ g).takeWhile inAuthority ∧
      (∀ c ∈ clientUserinfo pre, endsNetloc c = false) ∧ (∀ c ∈ m, inAuthority c = true) ∧
      '@' ∉ m ++ g.takeWhile inAuthority ∧
      hostText (m ++ g.takeWhile inAuthority) = hostText (hostport (netlocOf rest)) ∧
      (pre = [] ∧ userinfo (netlocOf rest) = [] ∨ pre = userinfo (netlocOf rest) ++ ['@']) := by
  rcases netlocOf_append rest with ⟨after, hrest, hafter⟩
  rcases netloc_shape (netlocOf rest) with ⟨pre, lead, tail, hnet, hshape, hat, hpre⟩
  have hin : ∀ c ∈ netlocOf rest, endsNetloc c = false := by
    intro c hc
    simpa using List.mem_takeWhile_imp hc
  have hlead : ∀ c ∈ lead, isC0OrSpace c = false ∧ isSlash c = false ∧ c ≠ '\\' := by
    intro c hc
    rcases hshape with ⟨rfl, -, -⟩ | ⟨rfl, -, -, -⟩
    · rw [List.mem_singleton.1 hc]
      decide
    · cases hc
  -- `lead ++ X` is a block both grammars keep whole
  generalize hX : hostText (hostport (netlocOf rest)) = X at *
  have hm : ∀ c ∈ lead ++ X, isC0OrSpace c = false ∧ isSlash c = false ∧ inAuthority c = true := by
    intro c hc
    have hcin : endsNetloc c = false := hin c (by rw [hnet]; simp at hc ⊢; tauto)
    rcases List.mem_append.1 hc with hc | hc
    · rcases hlead c hc with ⟨h1, h2, h3⟩
      exact ⟨h1, h2, inAuthority_iff.2 ⟨hcin, h3⟩⟩
    · have hp := hplain c (by rw [hX]; exact hc)
      refine ⟨hp.1, ?_, inAuthority_iff.2 ⟨hcin, hp.2⟩⟩
      have hslash : c ≠ '/' := by
        rintro rfl
        exact absurd hcin (by decide)
      simp [isSlash, hslash, hp.2]
  have hmne : lead ++ X ≠ [] := by simp [hne]
  refine ⟨pre, lead ++ X, (trimEndMatches isC0OrSpace (tail ++ after)).filter fun c =>
    !isTabOrNewline c, ?_, ?_, fun c hc => (hm c hc).2.2, ?_, ?_, hpre⟩
  · have hr : rest = pre ++ (lead ++ X) ++ (tail ++ after) := by
      rw [← List.append_assoc, ← hnet]
      exact hrest
    unfold clientAuthority
    rw [← client_prefix hmne fun c hc => ⟨(hm c hc).1, (hm c hc).2.1⟩, ← hr]
  · intro c hc
    refine hin c ?_
    rw [hnet, List.append_assoc]
    exact List.mem_append_left _ (mem_of_mem_clientUserinfo hc)
  · intro hmem
    refine hat ?_
    rcases List.mem_append.1 hmem with h | h
    · exact List.mem_append_left _ h
    · exact List.mem_append_right _ (mem_of_mem_clientTail (trimEndMatches_isPrefix _ _) hafter h)
  · refine hostText_of_shape ?_ hne
    rcases hshape with ⟨hl, hbr, htail⟩ | ⟨hl, hhead, hcol, htail⟩
    · exact Or.inl ⟨hl, hbr, head_clientTail htail (by decide) hafter⟩
    · exact Or.inr ⟨hl, hhead, hcol, head_clientTail htail (by decide) hafter⟩

/-- With no backslash left in the userinfo, the client finds the guard's host. -/
theorem hostText_client (hplain : PlainHost (netlocOf rest)) (hne : hostText (hostport (netlocOf rest)) ≠ [])
    (hback : '\\' ∉ clientUserinfo (userinfo (netlocOf rest))) :
    hostText (hostport (clientAuthority rest)) = hostText (hostport (netlocOf rest)) := by
  rcases client_shape hplain hne with ⟨pre, m, g, hauth, hpre, hm, hat, hhost, huser⟩
  have hall : ∀ c ∈ clientUserinfo pre ++ m, inAuthority c = true := by
    intro c hc
    rcases List.mem_append.1 hc with hc | hc
    · refine inAuthority_iff.2 ⟨hpre c hc, ?_⟩
      rintro rfl
      rcases huser with ⟨rfl, -⟩ | rfl
      · cases hc
      · rw [clientUserinfo_append_at] at hc
        exact hback (by simpa using hc)
    · exact hm c hc
  -- so the client's authority runs over the userinfo and the host
  rw [List.takeWhile_append_of_pos hall] at hauth
  rw [← hhost, hauth]
  refine congrArg hostText ?_
  rcases huser with ⟨rfl, -⟩ | rfl
  · have hnone : rsplitOnce '@' (m ++ g.takeWhile inAuthority) = none := rsplitOnce_eq_none.2 hat
    simp [hostport, clientUserinfo, hnone]
  · have hsplit := rsplitOnce_append (a := clientUserinfo (userinfo (netlocOf rest))) hat
    rw [clientUserinfo_append_at]
    unfold hostport
    simp only [List.append_assoc, List.cons_append, List.nil_append] at hsplit ⊢
    rw [hsplit]

/-- A backslash in the userinfo ends the client's authority there. -/
theorem clientAuthority_of_backslash (hplain : PlainHost (netlocOf rest))
    (hne : hostText (hostport (netlocOf rest)) ≠ [])
    (hback : '\\' ∈ clientUserinfo (userinfo (netlocOf rest))) :
    clientAuthority rest =
      (clientUserinfo (userinfo (netlocOf rest))).takeWhile inAuthority := by
  rcases client_shape hplain hne with ⟨pre, m, g, hauth, -, -, -, -, huser⟩
  rcases huser with ⟨-, hnil⟩ | rfl
  · rw [hnil] at hback
    cases hback
  · rw [hauth, clientUserinfo_append_at, List.append_assoc, List.append_assoc,
      List.takeWhile_append, if_neg]
    -- else the whole userinfo was taken, with the backslash in it
    intro hlen
    have htake : (clientUserinfo (userinfo (netlocOf rest))).takeWhile inAuthority =
        clientUserinfo (userinfo (netlocOf rest)) :=
      (List.takeWhile_prefix inAuthority).eq_of_length hlen
    rw [← htake] at hback
    exact absurd (List.mem_takeWhile_imp hback) (by decide)

/-! ## When the two agree -/

/-- The host text is plain and its lower case is ASCII; and if a backslash stands in
the userinfo (not only before it), the text before it has that very host. -/
def HostsAgree (W : HostParser L) (url : List Char) : Prop :=
  match splitOnce "://".toList url with
  | none => False
  | some (_, rest) =>
      PlainHost (netlocOf rest) ∧ IsAscii (L.lower (hostText (hostport (netlocOf rest)))) ∧
        ('\\' ∉ clientUserinfo (userinfo (netlocOf rest)) ∨
          W.authorityHost ((clientUserinfo (userinfo (netlocOf rest))).takeWhile inAuthority) =
            some (L.lower (hostText (hostport (netlocOf rest)))))

theorem toLower_of_le (h : c.toNat ≤ 0x20) : c.toLower = c := by
  unfold Char.toLower
  rw [dif_neg]
  intro hup
  have hA : 65 ≤ c.toNat := by
    have := UInt32.le_iff_toNat_le.1 hup.1
    exact this
  omega

/-- An https URL in the guard's eyes, with a host. -/
def IsHttps (L : Lowercase) (url : List Char) : Prop :=
  (urlParts L url).scheme = "https".toList ∧ (urlParts L url).host ≠ []

theorem isHttps_split {url : List Char} (h : IsHttps L url) :
    ∃ scheme rest, splitOnce "://".toList url = some (scheme, rest) ∧ isScheme scheme = true ∧
      L.lower scheme = "https".toList ∧
      (urlParts L url).host = L.lower (hostText (hostport (netlocOf rest))) ∧
      hostText (hostport (netlocOf rest)) ≠ [] := by
  rcases h with ⟨hs, hh⟩
  unfold urlParts at hs hh ⊢
  cases hsplit : splitOnce "://".toList url with
  | none =>
    rw [hsplit] at hs
    exact absurd hs.symm (List.cons_ne_nil _ _)
  | some r =>
    rcases r with ⟨scheme, rest⟩
    simp only [hsplit] at hs hh ⊢
    by_cases hok : isScheme scheme = true
    · simp only [hok, if_true] at hs hh ⊢
      refine ⟨scheme, rest, rfl, hok, hs, rfl, ?_⟩
      intro hnil
      rw [hnil, L.ascii [] (by simp [IsAscii])] at hh
      exact hh rfl
    · rw [if_neg hok] at hs
      exact absurd hs.symm (List.cons_ne_nil _ _)

section Agree

variable (W : HostParser L) {url h : List Char}

theorem isHttps_client (hurl : IsHttps L url) :
    ∃ scheme rest, splitOnce "://".toList url = some (scheme, rest) ∧
      (urlParts L url).host = L.lower (hostText (hostport (netlocOf rest))) ∧
      hostText (hostport (netlocOf rest)) ≠ [] ∧
      W.hostOf url = W.authorityHost (clientAuthority rest) := by
  rcases isHttps_split hurl with ⟨scheme, rest, hsplit, hscheme, hlow, hhost, hne⟩
  refine ⟨scheme, rest, hsplit, hhost, hne, ?_⟩
  rw [splitOnce_eq_some hsplit, hostOf_url W hscheme hlow]

theorem host_eq_of_agree (hurl : IsHttps L url) (hacc : W.hostOf url = some h)
    (hagree : HostsAgree W url) : (urlParts L url).host = h := by
  rcases isHttps_client W hurl with ⟨scheme, rest, hsplit, hhost, hne, hclient⟩
  unfold HostsAgree at hagree
  rw [hsplit] at hagree
  rcases hagree with ⟨hplain, hascii, hback⟩
  rw [hclient] at hacc
  rw [hhost]
  by_cases hmem : '\\' ∈ clientUserinfo (userinfo (netlocOf rest))
  · -- the client stops at the backslash and reads the text before it
    rcases hback with hno | hsame
    · exact absurd hmem hno
    · rw [clientAuthority_of_backslash hplain hne hmem, hsame] at hacc
      exact Option.some.inj hacc
  · -- both read the same host text
    rcases authorityHost_parse W hacc with ⟨b, hb⟩
    rw [hostText_client hplain hne hmem] at hb
    exact (W.lowered b _ h hb hascii).symm

/-- The contacted host is clean, so where it is the guard's, the guard's text
holds nothing to drop or to stop at. -/
theorem plainHost_of_parse {b : Bool} {t netloc : List Char}
    (hb : W.parse b t = some (L.lower (hostText (hostport netloc)))) : PlainHost netloc := by
  have hclean := W.clean _ _ _ hb
  intro c hc
  constructor
  · by_contra h0
    have hle : c.toNat ≤ 0x20 := by simpa [isC0OrSpace] using h0
    -- lower case keeps the control, so it would stand in the contacted host
    have hmem := L.keeps _ _ hc (by omega) (toLower_of_le hle)
    exact h0 (hclean _ hmem).1
  · rintro rfl
    have hmem := L.keeps _ _ hc (by decide) (by decide)
    exact (hclean _ hmem).2.1 rfl

theorem agree_of_host_eq (hurl : IsHttps L url) (hacc : W.hostOf url = some h)
    (heq : (urlParts L url).host = h) : HostsAgree W url := by
  rcases isHttps_client W hurl with ⟨scheme, rest, hsplit, hhost, hne, hclient⟩
  rw [hclient, ← heq, hhost] at hacc
  rcases authorityHost_parse W hacc with ⟨b, hb⟩
  have hplain : PlainHost (netlocOf rest) := plainHost_of_parse W hb
  unfold HostsAgree
  rw [hsplit]
  refine ⟨hplain, fun c hc => (W.clean _ _ _ hb c hc).2.2, ?_⟩
  by_cases hback : '\\' ∈ clientUserinfo (userinfo (netlocOf rest))
  · right
    rw [← clientAuthority_of_backslash hplain hne hback]
    exact hacc
  · exact Or.inl hback

end Agree

/-- The guard's host is the contacted host exactly when the two grammars meet no
text they read differently. -/
theorem guard_sees_client_host_iff (L : Lowercase) (W : HostParser L) (url h : List Char)
    (hurl : IsHttps L url) (hacc : W.hostOf url = some h) :
    (urlParts L url).host = h ↔ HostsAgree W url :=
  ⟨agree_of_host_eq W hurl hacc, host_eq_of_agree W hurl hacc⟩

/-- A parser of ASCII host names: their lower case, if nothing in it is refused. -/
def asciiHosts : HostParser asciiLowercase where
  parse _ t :=
    if (t.map Char.toLower).all fun c => !isC0OrSpace c && c != '\\' && c.toNat < 128 then
      some (t.map Char.toLower)
    else none
  lowered b t h hp _ := by
    split at hp
    · exact (Option.some.inj hp).symm
    · cases hp
  clean b t h hp c hc := by
    split at hp
    · next hall =>
        cases hp
        have hok := List.all_eq_true.1 hall c hc
        simpa [and_assoc] using hok
    · cases hp

/-- The guard checks example.com, the client contacts the internal host before the
backslash. -/
theorem guard_misses_backslash : ¬ ∀ h, IsHttps asciiLowercase "https://internal\\@example.com/x.zip".toList →
      asciiHosts.hostOf "https://internal\\@example.com/x.zip".toList = some h →
      (urlParts asciiLowercase "https://internal\\@example.com/x.zip".toList).host = h := by
  intro hsees
  have hguard := hsees "internal".toList ⟨by decide, by decide⟩ (by decide)
  exact absurd hguard (by decide)

/-- A user, a port and capitals are read alike. -/
theorem guard_sees_plain_host : (urlParts asciiLowercase "https://me@Example.com:8443/x.zip".toList).host =
        "example.com".toList ↔
      HostsAgree asciiHosts "https://me@Example.com:8443/x.zip".toList :=
  guard_sees_client_host_iff _ asciiHosts _ _ ⟨by decide, by decide⟩ (by decide)

/-! ## The download -/

/-- An accepted target: an https URL whose host is not blocked and whose addresses
are all public. -/
theorem validatedTarget_ok {Addr : Type} {lookup : List Char → Nat → Option (List Addr)}
    {isBlockedIp : Addr → Bool} {ldapHost url host : List Char} {a : Addr}
    (h : validatedTarget L lookup isBlockedIp ldapHost url = .ok (host, a)) :
    IsHttps L url ∧ host = (urlParts L url).host ∧ host ∉ BLOCKED_HOSTNAMES ∧
      ∃ addrs, lookup host ((urlPort url).getD 443) = some addrs ∧ a ∈ addrs ∧
        ∀ b ∈ addrs, isBlockedIp b = false := by
  unfold validatedTarget at h
  simp only at h
  split at h
  · cases h
  next hs =>
  split at h
  · cases h
  next hne =>
  split at h
  · cases h
  next hbl =>
  split at h
  · cases h
  next addrs hl =>
  split at h
  · cases h
  next hpub =>
  split at h
  · next b hb =>
      cases h
      refine ⟨⟨not_not.1 hs, hne⟩, rfl, fun hmem => hbl (Or.inl hmem), addrs, hl, ?_, ?_⟩
      · exact List.mem_of_mem_head? hb
      · intro c hc
        simpa using fun hbc => hpub (List.any_eq_true.2 ⟨c, hc, hbc⟩)
  · cases h

/-- Where the hosts agree, the contacted host is the one that was looked up: not
blocked, and without an internal address. -/
theorem contacted_host_checked {Addr : Type} {lookup : List Char → Nat → Option (List Addr)}
    {isBlockedIp : Addr → Bool} {ldapHost url host h : List Char} {a : Addr} (W : HostParser L)
    (hv : validatedTarget L lookup isBlockedIp ldapHost url = .ok (host, a))
    (hagree : HostsAgree W url) (hacc : W.hostOf url = some h) :
    h = host ∧ h ∉ BLOCKED_HOSTNAMES ∧
      ∃ addrs, lookup h ((urlPort url).getD 443) = some addrs ∧
        ∀ b ∈ addrs, isBlockedIp b = false := by
  rcases validatedTarget_ok hv with ⟨hurl, rfl, hbl, addrs, hl, -, hpub⟩
  have hh : (urlParts L url).host = h := host_eq_of_agree W hurl hacc hagree
  rw [hh] at hbl hl
  exact ⟨hh.symm, hbl, addrs, hl, hpub⟩

/-- A resolver that knows one host, at a public address. -/
theorem contacted_host_checked_archive :
    let lookup := fun host (_ : Nat) => if host = "example.com".toList then some [7] else none
    let url := "https://me@Example.com:8443/x.zip".toList
    "example.com".toList = "example.com".toList ∧ "example.com".toList ∉ BLOCKED_HOSTNAMES ∧
      ∃ addrs, lookup "example.com".toList ((urlPort url).getD 443) = some addrs ∧
        ∀ b ∈ addrs, decide (b = 1) = false := by
  intro lookup url
  have hclient : asciiHosts.hostOf url = some "example.com".toList := by decide
  have hagree : HostsAgree asciiHosts url := agree_of_host_eq asciiHosts ⟨by decide, by decide⟩ hclient (by decide)
  have hvalid : validatedTarget asciiLowercase lookup (fun b => decide (b = 1)) [] url =
      .ok ("example.com".toList, 7) := rfl
  exact contacted_host_checked asciiHosts hvalid hagree hclient

end Portal.Url
