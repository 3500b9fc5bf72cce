import DgxPlatform.Lib.JsonText
import DgxPlatform.Lib.UrlPath
import DgxPlatform.Portal.Url
import Mathlib.Data.Char
import Mathlib.Data.List.Lex
import Mathlib.Data.List.Sort

/-! # Signed requests to the bucket

`send_q` cuts the endpoint's text by hand, into a host and a path for the signature and
into the front of the address that it asks. The HTTP client reads that address as a web
address: it writes the host in lower case, leaves the default port out and prints any
other as a number, and takes dot segments away.

`signed_is_sent_iff`: the client sends what was signed exactly if none of this changes
anything; the query is always the signed one, and sorted.
-/

namespace Portal.S3Request

open Text UrlPath
open Url (isC0OrSpace isTabOrNewline inAuthority isScheme portOk hostport)

/-- The bucket settings. -/
structure Config where
  endpoint : List Char
  region : List Char
  bucket : List Char
  keyPrefix : List Char
  accessKey : List Char
  secretKey : List Char

def trimSlashes (t : List Char) : List Char := trimMatches (· == '/') t

def Config.key (c : Config) (parts : List (List Char)) : List Char :=
  ['/'].intercalate (((c.keyPrefix :: parts).map trimSlashes).filter fun p => p ≠ [])

def uriEncode (segment : List Char) : List Char := Percent.encode Percent.isUnreserved segment

/-- The hash and the keyed hash of the signature, in hexadecimal digits and in bytes. -/
structure Crypto where
  sha256 : List Char → List Char
  hmac : List UInt8 → List Char → List UInt8
  hex : List UInt8 → List Char

/-- What the signature is about, and what the server sees. -/
@[ext] structure Request where
  host : List Char
  path : List Char
  query : List Char
deriving DecidableEq, Repr

def canonicalRequest (method payloadSha256 amzDate : List Char) (r : Request) : List Char :=
  method ++ '\n' :: r.path ++ '\n' :: r.query ++ "\nhost:".toList ++ r.host ++
    "\nx-amz-content-sha256:".toList ++ payloadSha256 ++ "\nx-amz-date:".toList ++ amzDate ++
    "\n\nhost;x-amz-content-sha256;x-amz-date\n".toList ++ payloadSha256

/-- `signed`: the `Authorization` header. -/
def signed (k : Crypto) (cfg : Config) (method payloadSha256 region : List Char) (r : Request)
    (amzDate : List Char) : List Char :=
  let date := amzDate.take 8
  let scope := date ++ '/' :: region ++ "/s3/aws4_request".toList
  let toSign := "AWS4-HMAC-SHA256\n".toList ++ amzDate ++ '\n' :: scope ++
    '\n' :: k.sha256 (canonicalRequest method payloadSha256 amzDate r)
  let key := ([region, "s3".toList, "aws4_request".toList]).foldl k.hmac
    (k.hmac (Utf8.encode ("AWS4".toList ++ cfg.secretKey)) date)
  "AWS4-HMAC-SHA256 Credential=".toList ++ cfg.accessKey ++ '/' :: scope ++
    ", SignedHeaders=host;x-amz-content-sha256;x-amz-date, Signature=".toList ++ k.hex (k.hmac key toSign)

/-- No line break stands in what the signature is about. -/
def Request.OneLine (r : Request) : Prop := '\n' ∉ r.host ∧ '\n' ∉ r.path ∧ '\n' ∉ r.query

/-- The server signs what it got: that is the same text only if it got what was signed. -/
theorem canonicalRequest_injective (method payloadSha256 amzDate : List Char) {r r' : Request}
    (hr : r.OneLine) (hr' : r'.OneLine)
    (h : canonicalRequest method payloadSha256 amzDate r = canonicalRequest method payloadSha256 amzDate r') :
    r = r' := by
  -- the first line break ends each of the three
  have hfirst : ∀ {a b c d : List Char}, '\n' ∉ a → '\n' ∉ b → a ++ '\n' :: c = b ++ '\n' :: d → a = b ∧ c = d := by
    intro a b c d ha hb heq
    have hcut := congrArg (splitOnce ['\n']) heq
    rw [splitOnce_singleton ha, splitOnce_singleton hb] at hcut
    exact Prod.mk.inj (Option.some.inj hcut)
  have hhost : "\nhost:".toList = '\n' :: "host:".toList := rfl
  have hsha : "\nx-amz-content-sha256:".toList = '\n' :: "x-amz-content-sha256:".toList := rfl
  unfold canonicalRequest at h
  rw [hhost, hsha] at h
  simp only [List.append_assoc, List.cons_append] at h
  rcases hfirst hr.2.1 hr'.2.1 (List.cons.inj (List.append_cancel_left h)).2 with ⟨hpath, h⟩
  rcases hfirst hr.2.2 hr'.2.2 h with ⟨hquery, h⟩
  rcases hfirst hr.1 hr'.1 (List.append_cancel_left h) with ⟨hhosts, -⟩
  exact Request.ext hhosts hpath hquery

theorem canonicalRequest_injective_listing :
    let r : Request := ⟨"garage:3900".toList, "/backups".toList, "list-type=2".toList⟩
    ⟨"garage:3900".toList, "/backups".toList, "list-type=2".toList⟩ = r :=
  canonicalRequest_injective "GET".toList [] [] ⟨by decide, by decide, by decide⟩
    ⟨by decide, by decide, by decide⟩ rfl

/-! ## `send_q` -/

/-- The order of pairs: by the first text, then by the second. -/
def pairLe (p q : List Char × List Char) : Prop := p.1 < q.1 ∨ p.1 = q.1 ∧ p.2 ≤ q.2

instance : DecidableRel pairLe := fun p q => inferInstanceAs (Decidable (p.1 < q.1 ∨ p.1 = q.1 ∧ p.2 ≤ q.2))

section SendQ

variable (cfg : Config) (key : List Char) (query : List (List Char × List Char))

/-- What stands behind `://`, if that is there. -/
def afterScheme : Option (List Char) := (splitOnce "://".toList cfg.endpoint).map Prod.snd

def hostPort : List Char := (((afterScheme cfg).getD cfg.endpoint).splitOn '/').headD []

def basePath : List Char :=
  (((afterScheme cfg).bind fun h => splitOnce ['/'] h).map Prod.snd).getD []

def pathSegments : List (List Char) :=
  (((basePath cfg).splitOn '/').filter fun s => s ≠ []).map uriEncode ++ [uriEncode cfg.bucket] ++
    if key = [] then [] else (key.splitOn '/').map uriEncode

def canonicalUri : List Char := '/' :: ['/'].intercalate (pathSegments cfg key)

/-- The encoded pairs, by name and then by value. -/
def sortedPairs : List (List Char × List Char) :=
  (query.map fun p => (uriEncode p.1, uriEncode p.2)).insertionSort pairLe

def canonicalQuery : List Char :=
  ['&'].intercalate ((sortedPairs query).map fun p => p.1 ++ '=' :: p.2)

/-- What `signed` is called with. -/
def signedRequest : Request := ⟨hostPort cfg, canonicalUri cfg key, canonicalQuery query⟩

/-- The address that is asked. -/
def requestUrl : List Char :=
  ['/'].intercalate ((cfg.endpoint.splitOn '/').take 3) ++ canonicalUri cfg key ++
    if canonicalQuery query = [] then [] else '?' :: canonicalQuery query

end SendQ

/-! ## The client -/

def isNameChar (c : Char) : Bool := c.isAlphanum || c == '-' || c == '_' || c == '.'

/-- A host name, not a number: its last label begins with a letter. -/
def isName (t : List Char) : Bool :=
  t.all isNameChar && ((t.splitOn '.').getLastD []).head?.any Char.isAlpha

/-- A host as it is written: in brackets, or without a colon. -/
def IsHostText (t : List Char) : Prop :=
  (∃ u, ']' ∉ u ∧ t = '[' :: (u ++ [']'])) ∨ t.head? ≠ some '[' ∧ ':' ∉ t

/-- What the client makes of the text of a host: `none` when it refuses it. A name gets
its lower case; addresses are written in a form of their own. -/
structure HostReader where
  read : List Char → Option (List Char)
  lowered : ∀ t h, isName t = true → read t = some h → h = t.map Char.toLower
  written : ∀ t h, read t = some h → IsHostText h

/-- A host and what follows it. -/
def cutPort : List Char → List Char × List Char
  | '[' :: t => ('[' :: (t.takeWhile fun c => c != ']') ++ ((t.dropWhile fun c => c != ']').take 1),
      (t.dropWhile fun c => c != ']').drop 1)
  | t => (t.takeWhile fun c => c != ':', t.dropWhile fun c => c != ':')

def portNumber (digits : List Char) : Nat := Nat.ofDigitChars 10 digits 0

def defaultPort (scheme : List Char) : Option Nat :=
  if scheme = "http".toList then some 80 else if scheme = "https".toList then some 443 else none

/-- The port as the client writes it behind the host. -/
def portText (scheme port : List Char) : List Char :=
  let digits := port.drop 1
  if digits = [] ∨ some (portNumber digits) = defaultPort scheme then []
  else ':' :: Nat.toDigits 10 (portNumber digits)

/-- The `Host` header. -/
def HostReader.hostHeader (W : HostReader) (scheme authority : List Char) : Option (List Char) :=
  let (host, port) := cutPort (hostport authority)
  if portOk port then (W.read host).map (· ++ portText scheme port) else none

def inPath (c : Char) : Bool := !(c == '?' || c == '#')

/-- The bytes of a query that the client does not escape. -/
def keepInQuery (b : UInt8) : Bool :=
  0x20 < b && b < 0x7F && !([0x22, 0x23, 0x27, 0x3C, 0x3E] : List UInt8).contains b

/-- What the client sends for an address. -/
def HostReader.sent (W : HostReader) (url : List Char) : Option Request :=
  let t := (trimMatches isC0OrSpace url).filter fun c => !isTabOrNewline c
  let scheme := t.takeWhile fun c => c != ':'
  let rest := (t.drop (scheme.length + 1)).dropWhile UrlPath.isSlash
  let target := rest.dropWhile inAuthority
  (W.hostHeader (scheme.map Char.toLower) (rest.takeWhile inAuthority)).map fun host =>
    ⟨host, '/' :: ['/'].intercalate (resolve [] (segments (target.takeWhile inPath)).tail),
      Percent.encode keepInQuery (((target.dropWhile inPath).drop 1).takeWhile fun c => c != '#')⟩

/-! ## Endpoints -/

inductive Scheme where
  | http
  | https
deriving DecidableEq, Repr

def Scheme.text : Scheme → List Char
  | .http => "http".toList
  | .https => "https".toList

/-- An endpoint as it is configured: scheme, host, port and path. -/
structure Endpoint where
  scheme : Scheme
  host : List Char
  port : Option (List Char)
  path : Option (List Char)
  host_ne : host ≠ []
  host_text : IsHostText host
  host_plain : ∀ c ∈ host, isC0OrSpace c = false ∧ inAuthority c = true ∧ c ≠ '@'
  port_ok : ∀ p ∈ port, p ≠ [] ∧ portOk (':' :: p) = true

def portSuffix (port : Option (List Char)) : List Char := port.elim [] (':' :: ·)

def pathSuffix (path : Option (List Char)) : List Char := path.elim [] ('/' :: ·)

def Endpoint.authority (e : Endpoint) : List Char := e.host ++ portSuffix e.port

def Endpoint.text (e : Endpoint) : List Char :=
  e.scheme.text ++ "://".toList ++ (e.authority ++ pathSuffix e.path)

/-- The client leaves the host as it is: a name has no capitals, an address is written as the
client writes it. -/
def HostKept (W : HostReader) (host : List Char) : Prop :=
  if isName host then ∀ c ∈ host, c.isUpper = false else W.read host = some host

/-- The port is not the default one, and has no zeros in front. -/
def PortKept (e : Endpoint) : Prop :=
  ∀ p ∈ e.port, some (portNumber p) ≠ defaultPort e.scheme.text ∧ (p.head? = some '0' → p = ['0'])

/-- No part of the path is a dot or two. -/
def NoDots (e : Endpoint) (bucket key : List Char) : Prop :=
  ∀ s ∈ (e.path.getD []).splitOn '/' ++ bucket :: key.splitOn '/', s ≠ ".".toList ∧ s ≠ "..".toList

theorem pairLe_total (p q : List Char × List Char) : pairLe p q ∨ pairLe q p := by
  rcases lt_trichotomy p.1 q.1 with h | h | h
  · exact Or.inl (Or.inl h)
  · rcases le_total p.2 q.2 with hle | hle
    · exact Or.inl (Or.inr ⟨h, hle⟩)
    · exact Or.inr (Or.inr ⟨h.symm, hle⟩)
  · exact Or.inr (Or.inl h)

theorem pairLe_trans {p q r : List Char × List Char} (hpq : pairLe p q) (hqr : pairLe q r) : pairLe p r := by
  rcases hpq with hpq | ⟨hpq, hle⟩
  · rcases hqr with hqr | ⟨hqr, -⟩
    · exact Or.inl (hpq.trans hqr)
    · exact Or.inl (hqr ▸ hpq)
  · rcases hqr with hqr | ⟨hqr, hle'⟩
    · exact Or.inl (hpq ▸ hqr)
    · exact Or.inr ⟨hpq.trans hqr, hle.trans hle'⟩

instance : Std.Total pairLe := ⟨pairLe_total⟩

instance : IsTrans _ pairLe := ⟨fun _ _ _ => pairLe_trans⟩

theorem sortedPairs_pairwise (query : List (List Char × List Char)) : (sortedPairs query).Pairwise pairLe :=
  List.pairwise_insertionSort pairLe _

/-! ## The endpoint, cut -/

section Cut

variable (e : Endpoint)

theorem splitOnce_text : splitOnce "://".toList e.text = some (e.scheme.text, e.authority ++ pathSuffix e.path) := by
  unfold Endpoint.text
  cases e.scheme
  · rfl
  · rfl

theorem digits_of_port {p : List Char} (hp : p ∈ e.port) : ∀ c ∈ p, c.isDigit = true := by
  have hok := (e.port_ok p hp).2
  rw [portOk, Bool.and_eq_true, List.all_eq_true] at hok
  exact hok.1

theorem authority_of_digit {c : Char} (hc : c.isDigit = true) :
    isC0OrSpace c = false ∧ inAuthority c = true ∧ c ≠ '@' ∧ c.toNat < 128 := by
  have hrange : 48 ≤ c.toNat ∧ c.toNat ≤ 57 := by
    simpa [Char.isDigit, UInt32.le_iff_toNat_le] using hc
  have hall : ∀ n < 58, 48 ≤ n → isC0OrSpace (Char.ofNat n) = false ∧ inAuthority (Char.ofNat n) = true ∧
      Char.ofNat n ≠ '@' ∧ (Char.ofNat n).toNat < 128 := by decide
  have := hall c.toNat (by omega) hrange.1
  rwa [Char.ofNat_toNat] at this

theorem authority_plain : ∀ c ∈ e.authority, isC0OrSpace c = false ∧ inAuthority c = true ∧ c ≠ '@' := by
  intro c hc
  rcases List.mem_append.1 hc with hc | hc
  · exact e.host_plain c hc
  · unfold portSuffix at hc
    cases hport : e.port with
    | none =>
      rw [hport] at hc
      cases hc
    | some p =>
      rw [hport] at hc
      rcases List.mem_cons.1 hc with rfl | hc
      · decide
      · rcases authority_of_digit (digits_of_port e hport c hc) with ⟨hspace, hin, hat, -⟩
        exact ⟨hspace, hin, hat⟩

theorem slash_not_mem : '/' ∉ e.authority := by
  intro h
  exact absurd (authority_plain e _ h).2.1 (by decide)

theorem splitOn_authority : ∃ rest, (e.authority ++ pathSuffix e.path).splitOn '/' = e.authority :: rest := by
  unfold pathSuffix
  cases e.path with
  | none =>
    refine ⟨[], ?_⟩
    rw [Option.elim_none, List.append_nil, List.splitOn_eq_singleton (slash_not_mem e)]
  | some p => exact ⟨p.splitOn '/', List.splitOn_append_cons_self_of_not_mem (slash_not_mem e) p⟩

variable {cfg : Config} {e}

theorem hostPort_eq (h : cfg.endpoint = e.text) : hostPort cfg = e.authority := by
  rcases splitOn_authority e with ⟨rest, hrest⟩
  rw [hostPort, afterScheme, h, splitOnce_text, Option.map_some, Option.getD_some, hrest]
  rfl

theorem basePath_eq (h : cfg.endpoint = e.text) : basePath cfg = e.path.getD [] := by
  rw [basePath, afterScheme, h, splitOnce_text, Option.map_some, Option.bind_some]
  unfold pathSuffix
  cases e.path with
  | none =>
    have hnone : splitOnce ['/'] e.authority = none := by
      rw [splitOnce_eq_none, List.singleton_infix_iff]
      exact slash_not_mem e
    rw [Option.elim_none, List.append_nil, hnone]
    rfl
  | some p =>
    rw [Option.elim_some, splitOnce_singleton (slash_not_mem e)]
    rfl

theorem front_eq (h : cfg.endpoint = e.text) :
    ['/'].intercalate ((cfg.endpoint.splitOn '/').take 3) = e.scheme.text ++ "://".toList ++ e.authority := by
  have hscheme : '/' ∉ e.scheme.text ++ [':'] := by
    cases e.scheme
    · decide
    · decide
  have htext : e.text = (e.scheme.text ++ [':']) ++ '/' :: ([] ++ '/' :: (e.authority ++ pathSuffix e.path)) := by
    rw [Endpoint.text, List.append_assoc, List.append_assoc]
    rfl
  rcases splitOn_authority e with ⟨rest, hrest⟩
  rw [h, htext, List.splitOn_append_cons_self_of_not_mem hscheme,
    List.splitOn_append_cons_self_of_not_mem List.not_mem_nil, hrest]
  simp [List.intercalate]

end Cut

/-! ## The address, read by the client -/

/-- The characters of what is encoded. -/
def isWritten (c : Char) : Bool := c == '%' || (c.toNat < 128 && Percent.isUnreserved (UInt8.ofNat c.toNat))

theorem unreserved_lt (b : UInt8) (h : Percent.isUnreserved b = true) : b.toNat < 128 := by
  have hall : ∀ n < 256, Percent.isUnreserved (UInt8.ofNat n) = true → n < 128 := by decide +kernel
  have := hall b.toNat b.toNat_lt
  rw [UInt8.ofNat_toNat] at this
  exact this h

theorem readable : Percent.Readable Percent.isUnreserved := by
  intro b h
  refine ⟨unreserved_lt b h, ?_⟩
  rintro rfl
  exact absurd h (by decide)

theorem written_encode {t : List Char} : ∀ c ∈ uriEncode t, isWritten c = true := by
  intro c hc
  rcases Percent.mem_encode hc with ⟨b, hb, rfl⟩ | rfl | hc
  · have hlt := unreserved_lt b hb
    rw [isWritten, Percent.toNat_ofNat hlt, UInt8.ofNat_toNat, hb]
    simp [hlt]
  · rfl
  · have hall : ∀ d ∈ "0123456789ABCDEF".toList, isWritten d = true := Text.forall_of_all (by decide)
    exact hall c hc

theorem written_plain {c : Char} (h : isWritten c = true) :
    isC0OrSpace c = false ∧ inPath c = true ∧ UrlPath.isSlash c = false ∧ c ≠ '#' ∧ c.toNat < 128 ∧
      keepInPath (UInt8.ofNat c.toNat) = true ∧ keepInQuery (UInt8.ofNat c.toNat) = true := by
  have hall : ∀ n < 128, isWritten (Char.ofNat n) = true →
      isC0OrSpace (Char.ofNat n) = false ∧ inPath (Char.ofNat n) = true ∧ UrlPath.isSlash (Char.ofNat n) = false ∧
        Char.ofNat n ≠ '#' ∧ (Char.ofNat n).toNat < 128 ∧ keepInPath (UInt8.ofNat (Char.ofNat n).toNat) = true ∧
        keepInQuery (UInt8.ofNat (Char.ofNat n).toNat) = true := by decide +kernel
  have hlt : c.toNat < 128 := by
    rw [isWritten, Bool.or_eq_true, beq_iff_eq, Bool.and_eq_true, decide_eq_true_eq] at h
    rcases h with rfl | h
    · decide
    · exact h.1
  have := hall c.toNat hlt
  rw [Char.ofNat_toNat] at this
  exact this h

theorem isSlash_of_inAuthority {c : Char} (h : inAuthority c = true) : UrlPath.isSlash c = false := by
  rw [Url.inAuthority_iff, Url.endsNetloc] at h
  simp only [Bool.or_eq_false_iff] at h
  rw [UrlPath.isSlash, h.1.1.1, beq_eq_false_iff_ne.2 h.2]
  rfl

section Read

variable (cfg : Config) (key : List Char) (query : List (List Char × List Char))

theorem written_segments : ∀ s ∈ pathSegments cfg key, ∀ c ∈ s, isWritten c = true := by
  intro s hs
  have hencoded : ∃ t, uriEncode t = s := by
    unfold pathSegments at hs
    rcases List.mem_append.1 hs with hs | hs
    · rcases List.mem_append.1 hs with hs | hs
      · rcases List.mem_map.1 hs with ⟨t, -, ht⟩
        exact ⟨t, ht⟩
      · exact ⟨cfg.bucket, (List.mem_singleton.1 hs).symm⟩
    · split_ifs at hs
      · cases hs
      · rcases List.mem_map.1 hs with ⟨t, -, ht⟩
        exact ⟨t, ht⟩
  rcases hencoded with ⟨t, rfl⟩
  exact written_encode

theorem pathSegments_ne_nil : pathSegments cfg key ≠ [] := by
  unfold pathSegments
  simp

theorem canonicalUri_plain : ∀ c ∈ canonicalUri cfg key, isC0OrSpace c = false ∧ inPath c = true := by
  intro c hc
  rcases List.mem_cons.1 hc with rfl | hc
  · decide
  · rcases mem_intercalate hc with rfl | ⟨s, hs, hc⟩
    · decide
    · rcases written_plain (written_segments cfg key s hs c hc) with ⟨hspace, hin, -⟩
      exact ⟨hspace, hin⟩

theorem canonicalQuery_plain : ∀ c ∈ canonicalQuery query, isC0OrSpace c = false ∧ c ≠ '#' ∧ c.toNat < 128 ∧
    keepInQuery (UInt8.ofNat c.toNat) = true := by
  intro c hc
  rcases mem_intercalate hc with rfl | ⟨s, hs, hc⟩
  · decide
  · rcases List.mem_map.1 hs with ⟨p, hp, rfl⟩
    rw [sortedPairs, List.mem_insertionSort, List.mem_map] at hp
    rcases hp with ⟨q, -, rfl⟩
    have hwritten : c = '=' ∨ isWritten c = true := by
      rcases List.mem_append.1 hc with hc | hc
      · exact Or.inr (written_encode c hc)
      · rcases List.mem_cons.1 hc with rfl | hc
        · exact Or.inl rfl
        · exact Or.inr (written_encode c hc)
    rcases hwritten with rfl | hwritten
    · decide
    · rcases written_plain hwritten with ⟨hspace, -, -, hhash, hlt, -, hkeep⟩
      exact ⟨hspace, hhash, hlt, hkeep⟩

/-- Where the query begins, if there is one. -/
def querySuffix : List Char := if canonicalQuery query = [] then [] else '?' :: canonicalQuery query

variable {cfg} {e : Endpoint}

theorem requestUrl_eq (h : cfg.endpoint = e.text) : requestUrl cfg key query =
    e.scheme.text ++ "://".toList ++ (e.authority ++ (canonicalUri cfg key ++ querySuffix query)) := by
  rw [requestUrl, front_eq h, List.append_assoc, List.append_assoc]
  rfl

theorem isScheme_text (s : Scheme) : isScheme s.text = true := by
  cases s
  · rfl
  · rfl

theorem rest_plain (e : Endpoint) :
    ∀ c ∈ e.authority ++ (canonicalUri cfg key ++ querySuffix query), isC0OrSpace c = false := by
  intro c hc
  rcases List.mem_append.1 hc with hc | hc
  · exact (authority_plain e c hc).1
  · rcases List.mem_append.1 hc with hc | hc
    · exact (canonicalUri_plain cfg key c hc).1
    · unfold querySuffix at hc
      split_ifs at hc
      · cases hc
      · rcases List.mem_cons.1 hc with rfl | hc
        · decide
        · exact (canonicalQuery_plain query c hc).1

theorem requestUrl_clean (h : cfg.endpoint = e.text) :
    (trimMatches isC0OrSpace (requestUrl cfg key query)).filter (fun c => !isTabOrNewline c) =
      e.scheme.text ++ ':' :: '/' :: '/' :: (e.authority ++ (canonicalUri cfg key ++ querySuffix query)) := by
  have hrest := @rest_plain cfg key query e
  have hne : e.authority ++ (canonicalUri cfg key ++ querySuffix query) ≠ [] := by
    simp [canonicalUri]
  have hend := @trimEndMatches_append_block isC0OrSpace [] _ [] hne hrest
  rw [List.nil_append, List.append_nil] at hend
  rw [requestUrl_eq key query h, Url.trimMatches_url (isScheme_text _), hend]
  have hnil : trimEndMatches isC0OrSpace [] = [] := rfl
  rw [hnil, List.append_nil, List.filter_eq_self.2]
  · rw [List.append_assoc]
    rfl
  · intro c hc
    rw [Bool.not_eq_true']
    rcases List.mem_append.1 hc with hc | hc
    · have hscheme : ∀ s : Scheme, ∀ c ∈ s.text ++ "://".toList, isTabOrNewline c = false := by
        intro s
        cases s
        · exact Text.forall_of_all (by decide)
        · exact Text.forall_of_all (by decide)
      exact hscheme e.scheme c hc
    · exact Url.isTabOrNewline_eq_false (hrest c hc)

theorem query_read : Percent.encode keepInQuery (((querySuffix query).drop 1).takeWhile fun c => c != '#') =
    canonicalQuery query := by
  have hplain := canonicalQuery_plain query
  have hdrop : (querySuffix query).drop 1 = canonicalQuery query := by
    unfold querySuffix
    split_ifs with hnil
    · exact hnil.symm
    · rfl
  rw [hdrop, List.takeWhile_eq_self_iff.2, Percent.encode_of_keep]
  · intro c hc
    exact (hplain c hc).2.2
  · intro c hc
    simpa using (hplain c hc).2.1

theorem sent_requestUrl (W : HostReader) (h : cfg.endpoint = e.text) :
    W.sent (requestUrl cfg key query) = (W.hostHeader e.scheme.text e.authority).map fun host =>
      ⟨host, '/' :: ['/'].intercalate (resolve [] (pathSegments cfg key)), canonicalQuery query⟩ := by
  have hcolon : ∀ t : List Char, (e.scheme.text ++ ':' :: t).takeWhile (fun c => c != ':') = e.scheme.text := by
    intro t
    cases e.scheme
    · rfl
    · rfl
  have hlower : e.scheme.text.map Char.toLower = e.scheme.text := by
    cases e.scheme
    · rfl
    · rfl
  -- the slashes end before the host
  have hskip : ∀ t : List Char, (e.authority ++ t).dropWhile UrlPath.isSlash = e.authority ++ t := by
    intro t
    rcases List.exists_cons_of_ne_nil e.host_ne with ⟨c, a, ha⟩
    have hc := (e.host_plain c (by rw [ha]; exact List.mem_cons_self)).2.1
    rw [Endpoint.authority, ha, List.cons_append, List.cons_append,
      List.dropWhile_cons_of_neg (by rw [isSlash_of_inAuthority hc]; exact Bool.false_ne_true)]
  have hin : ∀ c ∈ e.authority, inAuthority c = true := fun c hc => (authority_plain e c hc).2.1
  have hpath : (canonicalUri cfg key ++ querySuffix query).takeWhile inPath = canonicalUri cfg key := by
    rw [List.takeWhile_append_of_pos fun c hc => (canonicalUri_plain cfg key c hc).2]
    unfold querySuffix
    split_ifs
    · exact List.append_nil _
    · rw [List.takeWhile_cons_of_neg (by decide), List.append_nil]
  have hquery : (canonicalUri cfg key ++ querySuffix query).dropWhile inPath = querySuffix query := by
    rw [List.dropWhile_append_of_pos fun c hc => (canonicalUri_plain cfg key c hc).2]
    unfold querySuffix
    split_ifs
    · rfl
    · rfl
  have hauthority : (e.authority ++ (canonicalUri cfg key ++ querySuffix query)).takeWhile inAuthority =
      e.authority := by
    rw [List.takeWhile_append_of_pos hin, canonicalUri, List.cons_append, List.takeWhile_cons_of_neg (by decide),
      List.append_nil]
  have htarget : (e.authority ++ (canonicalUri cfg key ++ querySuffix query)).dropWhile inAuthority =
      canonicalUri cfg key ++ querySuffix query := by
    rw [List.dropWhile_append_of_pos hin, canonicalUri, List.cons_append, List.dropWhile_cons_of_neg (by decide)]
  have hsegments : (segments (canonicalUri cfg key)).tail = pathSegments cfg key := by
    rw [canonicalUri, segments_slash, List.tail_cons, segments_intercalate (pathSegments_ne_nil cfg key)]
    intro s hs c hc
    rcases written_plain (written_segments cfg key s hs c hc) with ⟨-, -, hslash, -, hlt, hkeep, -⟩
    exact ⟨hslash, hlt, hkeep⟩
  unfold HostReader.sent
  rw [requestUrl_clean key query h]
  dsimp only
  rw [hcolon, hlower, List.drop_length_add_append, List.drop_one, List.tail_cons,
    List.dropWhile_cons_of_pos (by decide), List.dropWhile_cons_of_pos (by decide), hskip, hauthority, htarget,
    hpath, hquery, hsegments, query_read]

end Read

/-! ## What the client changes -/

theorem cutPort_of_head {t : List Char} (h : t.head? ≠ some '[') :
    cutPort t = (t.takeWhile fun c => c != ':', t.dropWhile fun c => c != ':') := by
  unfold cutPort
  split
  · exact absurd rfl h
  · rfl

theorem cutPort_append {h u : List Char} (hh : IsHostText h) (hu : u = [] ∨ u.head? = some ':') :
    cutPort (h ++ u) = (h, u) := by
  rcases hh with ⟨v, hv, rfl⟩ | ⟨hhead, hcolon⟩
  · have hkeep : ∀ c ∈ v, (c != ']') = true := by
      intro c hc
      rw [bne_iff_ne]
      rintro rfl
      exact hv hc
    rw [List.cons_append, List.append_assoc, List.singleton_append, cutPort, List.takeWhile_append_of_pos hkeep,
      List.dropWhile_append_of_pos hkeep]
    simp
  · have hkeep : ∀ c ∈ h, (c != ':') = true := by
      intro c hc
      rw [bne_iff_ne]
      rintro rfl
      exact hcolon hc
    have hfirst : (h ++ u).head? ≠ some '[' := by
      cases h with
      | nil =>
        rcases hu with rfl | hu
        · simp
        · rw [List.nil_append, hu]
          decide
      | cons c h => exact hhead
    rw [cutPort_of_head hfirst, List.takeWhile_append_of_pos hkeep, List.dropWhile_append_of_pos hkeep]
    rcases hu with rfl | hu
    · simp
    · rcases List.head?_eq_some_iff.1 hu with ⟨p, rfl⟩
      simp

theorem suffix_cases (port : Option (List Char)) : portSuffix port = [] ∨ (portSuffix port).head? = some ':' := by
  cases port with
  | none => exact Or.inl rfl
  | some p => exact Or.inr rfl

theorem portText_cases (scheme port : List Char) :
    portText scheme port = [] ∨ (portText scheme port).head? = some ':' := by
  unfold portText
  dsimp only
  split_ifs
  · exact Or.inl rfl
  · exact Or.inr rfl

theorem toDigits_portNumber {p : List Char} (hp : ∀ c ∈ p, c.isDigit = true) (hne : p ≠ [])
    (hzero : p.head? ≠ some '0') :
    Nat.toDigits 10 (portNumber p) = p := by
  induction p using List.reverseRecOn with
  | nil => exact absurd rfl hne
  | append_singleton q c ih =>
    have hdigit : ∀ n < 58, 48 ≤ n → n - 48 < 10 ∧ Nat.digitChar (n - 48) = Char.ofNat n := by decide
    have hc : 48 ≤ c.toNat ∧ c.toNat ≤ 57 := by
      have := hp c (List.mem_append_right _ (List.mem_singleton_self c))
      simpa [Char.isDigit, UInt32.le_iff_toNat_le] using this
    rcases hdigit c.toNat (by omega) hc.1 with ⟨hlt, hchar⟩
    rw [Char.ofNat_toNat] at hchar
    have hvalue : portNumber (q ++ [c]) = 10 * portNumber q + (c.toNat - 48) := by
      rw [portNumber, Nat.ofDigitChars_append, Nat.ofDigitChars_cons, Nat.ofDigitChars_nil]
      rfl
    by_cases hq : q = []
    · subst hq
      rw [hvalue, portNumber, Nat.ofDigitChars_nil, Nat.mul_zero, Nat.zero_add, Nat.toDigits_of_lt_base hlt, hchar]
      rfl
    · rw [List.head?_append_of_ne_nil _ hq] at hzero
      have hfront := ih (fun d hd => hp d (List.mem_append_left _ hd)) hq hzero
      -- the digits in front are not zero: zero is printed with one
      have hpos : 0 < portNumber q := by
        rcases Nat.eq_zero_or_pos (portNumber q) with h0 | hpos
        · rw [h0, Nat.toDigits_zero] at hfront
          rw [← hfront] at hzero
          exact absurd rfl hzero
        · exact hpos
      rw [hvalue, ← Nat.toDigits_append_toDigits (by decide) hpos hlt, hfront, Nat.toDigits_of_lt_base hlt, hchar]

/-- The client writes the port as it stands exactly if it is not the default one and has no zeros
in front. -/
theorem portText_eq_iff (e : Endpoint) :
    portText e.scheme.text (portSuffix e.port) = portSuffix e.port ↔ PortKept e := by
  unfold PortKept
  cases hport : e.port with
  | none => simp [portText, portSuffix]
  | some p =>
    have hne := (e.port_ok p hport).1
    have hprint : Nat.toDigits 10 (portNumber p) = p ↔ (p.head? = some '0' → p = ['0']) := by
      constructor
      · intro h hzero
        rw [← h] at hzero
        have h0 := JsonText.head?_toDigits _ hzero
        rw [h0, Nat.toDigits_zero] at h
        exact h.symm
      · intro h
        by_cases hzero : p.head? = some '0'
        · rw [h hzero]
          rfl
        · exact toDigits_portNumber (digits_of_port e hport) hne hzero
    have hdrop : (portSuffix (some p)).drop 1 = p := rfl
    rw [portText, hdrop]
    constructor
    · intro h q hq
      rcases Option.some.inj hq with rfl
      split_ifs at h with hdefault
      · cases h
      · exact ⟨fun hd => hdefault (Or.inr hd), hprint.1 (List.cons.inj h).2⟩
    · intro h
      rcases h p rfl with ⟨hdefault, hdigits⟩
      rw [if_neg (not_or.2 ⟨hne, hdefault⟩), hprint.2 hdigits]
      rfl

theorem toLower_name : ∀ n < 128, ((Char.ofNat n).toLower = Char.ofNat n ↔ (Char.ofNat n).isUpper = false) := by
  decide

theorem nameChar_lt {c : Char} (h : isNameChar c = true) : c.toNat < 128 := by
  simp only [isNameChar, Bool.or_eq_true, beq_iff_eq] at h
  rcases h with ((h | rfl) | rfl) | rfl
  · have := toNat_of_isAlphanum h
    omega
  all_goals decide

theorem read_eq_iff (W : HostReader) {host h : List Char} (hacc : W.read host = some h) :
    h = host ↔ HostKept W host := by
  unfold HostKept
  split_ifs with hname
  · rw [W.lowered host h hname hacc]
    have hascii : ∀ c ∈ host, c.toNat < 128 := by
      rw [isName, Bool.and_eq_true, List.all_eq_true] at hname
      intro c hc
      exact nameChar_lt (hname.1 c hc)
    have hchar : ∀ c ∈ host, c.toLower = c ↔ c.isUpper = false := by
      intro c hc
      have := toLower_name c.toNat (hascii c hc)
      rwa [Char.ofNat_toNat] at this
    have hmap : host.map Char.toLower = host ↔ ∀ c ∈ host, c.toLower = c := by
      conv_lhs => rhs; rw [← List.map_id host]
      exact List.map_inj_left
    rw [hmap]
    constructor
    · intro hkept c hc
      exact (hchar c hc).1 (hkept c hc)
    · intro hlower c hc
      exact (hchar c hc).2 (hlower c hc)
  · rw [hacc]
    exact Option.some_inj.symm

theorem hostHeader_eq (W : HostReader) (e : Endpoint) :
    W.hostHeader e.scheme.text e.authority =
      (W.read e.host).map (· ++ portText e.scheme.text (portSuffix e.port)) := by
  have hat : hostport e.authority = e.authority := by
    have hnone : rsplitOnce '@' e.authority = none :=
      rsplitOnce_eq_none.2 fun hmem => (authority_plain e _ hmem).2.2 rfl
    rw [hostport, hnone]
  have hport : portOk (portSuffix e.port) = true := by
    cases hp : e.port with
    | none => rfl
    | some p => exact (e.port_ok p hp).2
  unfold HostReader.hostHeader
  rw [hat, Endpoint.authority, cutPort_append e.host_text (suffix_cases e.port)]
  dsimp only
  rw [if_pos hport]

/-- The header is the signed one exactly if the host and the port are left as they are. -/
theorem host_eq_iff (W : HostReader) (e : Endpoint) {h : List Char} (hacc : W.read e.host = some h) :
    h ++ portText e.scheme.text (portSuffix e.port) = e.authority ↔ HostKept W e.host ∧ PortKept e := by
  rw [← read_eq_iff W hacc, ← portText_eq_iff]
  constructor
  · intro heq
    have hcut := congrArg cutPort heq
    rw [cutPort_append (W.written _ _ hacc) (portText_cases _ _), Endpoint.authority,
      cutPort_append e.host_text (suffix_cases e.port)] at hcut
    exact ⟨congrArg Prod.fst hcut, congrArg Prod.snd hcut⟩
  · rintro ⟨rfl, hport⟩
    rw [hport]
    rfl

/-- The segments that are signed have no dots exactly if the configured ones have none. -/
theorem plain_iff {cfg : Config} {e : Endpoint} (h : cfg.endpoint = e.text) (key : List Char) :
    (∀ s ∈ pathSegments cfg key, isPlain s = true) ↔ NoDots e cfg.bucket key := by
  have hplain : ∀ t : List Char, isPlain (uriEncode t) = true ↔ t ≠ ".".toList ∧ t ≠ "..".toList := fun t =>
    isPlain_encode_iff readable (by decide)
  have hnil : ([] : List Char) ≠ ".".toList ∧ ([] : List Char) ≠ "..".toList := by decide
  have hbase : (∀ s ∈ (((e.path.getD []).splitOn '/').filter fun s => s ≠ []).map uriEncode, isPlain s = true) ↔
      ∀ s ∈ (e.path.getD []).splitOn '/', s ≠ ".".toList ∧ s ≠ "..".toList := by
    simp only [List.forall_mem_map, List.mem_filter, decide_eq_true_eq, hplain]
    constructor
    · intro hall s hs
      by_cases hs0 : s = []
      · rw [hs0]
        exact hnil
      · exact hall s ⟨hs, hs0⟩
    · intro hall s hs
      exact hall s hs.1
  have hkey : (∀ s ∈ if key = [] then [] else (key.splitOn '/').map uriEncode, isPlain s = true) ↔
      ∀ s ∈ key.splitOn '/', s ≠ ".".toList ∧ s ≠ "..".toList := by
    split_ifs with hk
    · subst hk
      exact ⟨fun _ s hs => by rw [List.mem_singleton.1 hs]; exact hnil, fun _ s hs => absurd hs List.not_mem_nil⟩
    · simp only [List.forall_mem_map, hplain]
  unfold NoDots pathSegments
  simp only [List.forall_mem_append, List.forall_mem_cons, basePath_eq h, hbase, hkey, hplain, and_assoc]
  simp only [List.not_mem_nil, false_implies, implies_true, true_and]

/-- The client sends the host, the path and the query that were signed exactly if the host has
no capitals, the port is not the default one nor written with zeros in front, and no part of the
path is a dot or two; the query is sorted in any case. -/
theorem signed_is_sent_iff (W : HostReader) (cfg : Config) (e : Endpoint) (key : List Char)
    (query : List (List Char × List Char)) (hcfg : cfg.endpoint = e.text) (hacc : (W.read e.host).isSome = true) :
    W.sent (requestUrl cfg key query) = some (signedRequest cfg key query) ∧
        (sortedPairs query).Perm (query.map fun p => (uriEncode p.1, uriEncode p.2)) ∧
        (sortedPairs query).Pairwise pairLe ↔
      HostKept W e.host ∧ PortKept e ∧ NoDots e cfg.bucket key := by
  rcases Option.isSome_iff_exists.1 hacc with ⟨h, hread⟩
  have hpath : '/' :: ['/'].intercalate (resolve [] (pathSegments cfg key)) = canonicalUri cfg key ↔
      NoDots e cfg.bucket key := by
    rw [← plain_iff hcfg key, ← resolve_eq_self_iff, canonicalUri, List.cons_inj_right]
    have hslash : ∀ s ∈ pathSegments cfg key, '/' ∉ s := by
      intro s hs hmem
      exact absurd (written_segments cfg key s hs _ hmem) (by decide)
    have hresolved : ∀ s ∈ resolve [] (pathSegments cfg key), '/' ∉ s := by
      intro s hs
      rcases (mem_resolve hs).1 with hs | rfl
      · exact hslash s hs
      · exact List.not_mem_nil
    have hne := pathSegments_ne_nil cfg key
    constructor
    · intro hjoin
      have hsplit := congrArg (List.splitOn '/') hjoin
      rwa [List.splitOn_intercalate '/' hresolved (resolve_ne_nil hne),
        List.splitOn_intercalate '/' hslash hne] at hsplit
    · intro hkept
      rw [hkept]
  rw [sent_requestUrl key query W hcfg, hostHeader_eq, hread, signedRequest, hostPort_eq hcfg]
  simp only [Option.map_some, Option.some_inj, Request.mk.injEq, and_true]
  rw [host_eq_iff W e hread, hpath]
  constructor
  · rintro ⟨⟨⟨hhost, hport⟩, hdots⟩, -, -⟩
    exact ⟨hhost, hport, hdots⟩
  · rintro ⟨hhost, hport, hdots⟩
    exact ⟨⟨⟨hhost, hport⟩, hdots⟩, List.perm_insertionSort _ _, sortedPairs_pairwise query⟩

/-! ## Two endpoints -/

/-- A client that takes host names only. -/
def nameReader : HostReader where
  read t := if isName (t.map Char.toLower) then some (t.map Char.toLower) else none
  lowered t h _ hread := by
    split_ifs at hread
    exact (Option.some.inj hread).symm
  written t h hread := by
    split_ifs at hread with hname
    rcases Option.some.inj hread with rfl
    rw [isName, Bool.and_eq_true, List.all_eq_true] at hname
    refine Or.inr ⟨?_, ?_⟩
    · intro hhead
      exact absurd (hname.1 '[' (List.mem_of_mem_head? hhead)) (by decide)
    · intro hcolon
      exact absurd (hname.1 ':' hcolon) (by decide)

def sampleEndpoint (host port : String) (hne : host.toList ≠ [])
    (htext : host.toList.head? ≠ some '[' ∧ ':' ∉ host.toList)
    (hplain : ∀ c ∈ host.toList, isC0OrSpace c = false ∧ inAuthority c = true ∧ c ≠ '@')
    (hport : port.toList ≠ [] ∧ portOk (':' :: port.toList) = true) : Endpoint where
  scheme := .http
  host := host.toList
  port := some port.toList
  path := none
  host_ne := hne
  host_text := Or.inr htext
  host_plain := hplain
  port_ok p hp := by
    rcases Option.some.inj hp with rfl
    exact hport

def garage : Endpoint :=
  sampleEndpoint "garage" "3900" (by decide) (by decide) (Text.forall_of_all (by decide)) (by decide)

def garageDefault : Endpoint :=
  sampleEndpoint "garage" "80" (by decide) (by decide) (Text.forall_of_all (by decide)) (by decide)

def garageCapital : Endpoint :=
  sampleEndpoint "Garage" "3900" (by decide) (by decide) (Text.forall_of_all (by decide)) (by decide)

def sampleConfig (e : Endpoint) : Config where
  endpoint := e.text
  region := "garage".toList
  bucket := "media".toList
  keyPrefix := []
  accessKey := "GK1".toList
  secretKey := "s".toList

def listing : List (List Char × List Char) := [("prefix".toList, "a/b".toList), ("list-type".toList, "2".toList)]

theorem signed_is_sent_listing :
    nameReader.sent (requestUrl (sampleConfig garage) [] listing) =
        some (signedRequest (sampleConfig garage) [] listing) ∧
        (sortedPairs listing).Perm (listing.map fun p => (uriEncode p.1, uriEncode p.2)) ∧
        (sortedPairs listing).Pairwise pairLe ↔
      HostKept nameReader garage.host ∧ PortKept garage ∧ NoDots garage "media".toList [] :=
  signed_is_sent_iff nameReader (sampleConfig garage) garage [] listing rfl (by decide)

/-- The default port, a capital letter and a segment of two dots: each is signed and not sent. -/
theorem signed_not_sent :
    nameReader.sent (requestUrl (sampleConfig garageDefault) "a.png".toList []) ≠
        some (signedRequest (sampleConfig garageDefault) "a.png".toList []) ∧
      nameReader.sent (requestUrl (sampleConfig garageCapital) "a.png".toList []) ≠
        some (signedRequest (sampleConfig garageCapital) "a.png".toList []) ∧
      nameReader.sent (requestUrl (sampleConfig garage) "a/../b.png".toList []) ≠
        some (signedRequest (sampleConfig garage) "a/../b.png".toList []) := by
  decide +kernel

end Portal.S3Request
