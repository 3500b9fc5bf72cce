import DgxPlatform.Portal.Url

/-! # The redirect after login

`safe_next` lets a relative path of the site through and sends everything else to the
home page. The browser resolves what it lets through by the rules of URLs: it trims
controls and spaces, drops tabs and line breaks, and only then looks at the slashes. A
carriage return is one of the characters it drops and none of those `safe_next` refuses.

`stays_home_iff`: the browser stays on the site exactly when the target is not a slash,
carriage returns, and a slash, or when the authority behind them is the site's own.
-/

namespace Portal.Url

open Text

variable {L : Lowercase}

/-! ## The filter -/

/-- What `safe_next` refuses before it splits the text. -/
def refused (t : List Char) : Bool :=
  t.any (fun c => c == '\\' || c == '\t' || c == '\n') || !(['/'].isPrefixOf t)
    || ['/', '/'].isPrefixOf t || contains t "://".toList

/-- `safe_next`: only a local relative path, else the home page. -/
def safeNext (L : Lowercase) (target : Option (List Char)) : List Char :=
  match target.filter (· ≠ []) with
  | none => ['/']
  | some t =>
      if refused t then ['/']
      else if (urlParts L t).scheme ≠ [] ∨ (urlParts L t).host ≠ [] then ['/']
      else t

/-! ## The browser -/

/-- A tuple origin; every other one is equal to none but itself. -/
inductive Origin where
  | tuple (scheme host : List Char) (port : Option Nat)
  | unique
deriving DecidableEq, Repr

/-- The special schemes with an authority, and their ports. -/
def SPECIAL_PORTS : List (List Char × Nat) :=
  [("ftp".toList, 21), ("http".toList, 80), ("https".toList, 443), ("ws".toList, 80),
    ("wss".toList, 443)]

/-- A site whose pages are served over http or https. -/
structure Site where
  https : Bool
  host : List Char
  port : Option Nat

def Site.scheme (s : Site) : List Char := if s.https then "https".toList else "http".toList

def Site.origin (s : Site) : Origin := .tuple s.scheme s.host s.port

/-- What follows the host of an authority. -/
def portText (authority : List Char) : List Char :=
  match hostport authority with
  | '[' :: t => (t.dropWhile fun c => c != ']').tail
  | t => t.dropWhile fun c => c != ':'

/-- The port, unless it is the scheme's own. -/
def portOf (scheme authority : List Char) : Option Nat :=
  match portText authority with
  | [] | [_] => none
  | _ :: digits =>
      let n := digits.foldl (fun n d => 10 * n + (d.toNat - 48)) 0
      if SPECIAL_PORTS.lookup scheme = some n then none else some n

/-- The origin of a special URL with an authority, if its host and port can be read. -/
def authorityOrigin (W : HostParser L) (scheme authority : List Char) : Option Origin :=
  (W.authorityHost authority).map fun host => .tuple scheme host (portOf scheme authority)

/-- The authority behind the slashes that start it. -/
def behindSlashes (t : List Char) : List Char := (t.dropWhile isSlash).takeWhile inAuthority

/-- A reference without a scheme: two slashes of either kind start an authority, anything else
is a path, a query or a fragment of the site. -/
def relativeOrigin (W : HostParser L) (site : Site) : List Char → Option Origin
  | c :: d :: t =>
      if isSlash c && isSlash d then
        authorityOrigin W site.scheme (behindSlashes (c :: d :: t))
      else some site.origin
  | _ => some site.origin

/-- A scheme in lower case, and what follows the colon. -/
def schemeOf (t : List Char) : Option (List Char × List Char) :=
  let scheme := t.takeWhile fun c => c != ':'
  if isScheme scheme && decide (scheme.length < t.length) then
    some (scheme.map Char.toLower, t.drop (scheme.length + 1))
  else none

/-- The origin of what a browser makes of `t` on a page of the site, if it is a URL. -/
def resolve (W : HostParser L) (site : Site) (t : List Char) : Option Origin :=
  let t := (trimMatches isC0OrSpace t).filter fun c => !isTabOrNewline c
  match schemeOf t with
  | none => relativeOrigin W site t
  | some (scheme, rest) =>
      if scheme = site.scheme then
        if ['/', '/'].isPrefixOf rest then authorityOrigin W scheme (behindSlashes rest)
        else relativeOrigin W site rest
      else if (SPECIAL_PORTS.lookup scheme).isSome then
        authorityOrigin W scheme (behindSlashes rest)
      else some .unique

/-- After the redirect the browser is still on the site. -/
def StaysHome (L : Lowercase) (W : HostParser L) (site : Site) (target : Option (List Char)) : Prop :=
  resolve W site (safeNext L target) = some site.origin

/-! ## What passes the filter -/

/-- A slash, carriage returns, and a slash, in a text that is not refused. -/
def Smuggles (t rest : List Char) : Prop :=
  refused t = false ∧ ∃ returns, returns ≠ [] ∧ (∀ c ∈ returns, c = '\r') ∧
    t = '/' :: (returns ++ '/' :: rest)

theorem refused_eq_false_iff {t : List Char} : refused t = false ↔
    (∀ c ∈ t, c ≠ '\\' ∧ c ≠ '\t' ∧ c ≠ '\n') ∧ ['/'] <+: t ∧ ¬ ['/', '/'] <+: t ∧
      ¬ "://".toList <:+: t := by
  rw [refused, Bool.or_eq_false_iff, Bool.or_eq_false_iff, Bool.or_eq_false_iff, and_assoc, and_assoc]
  refine and_congr ?_ (and_congr ?_ (and_congr ?_ ?_))
  · simp [and_assoc]
  · rw [Bool.not_eq_false', List.isPrefixOf_iff_prefix]
  · rw [Bool.eq_false_iff, ne_eq, List.isPrefixOf_iff_prefix]
  · exact decide_eq_false_iff_not

/-- The split finds neither a scheme nor a host in a text that is not refused. -/
theorem safeNext_of_passes {t : List Char} (h : refused t = false) : safeNext L (some t) = t := by
  obtain ⟨-, hslash, -, hsep⟩ := refused_eq_false_iff.1 h
  have hne : t ≠ [] := by
    rintro rfl
    exact absurd hslash (by decide)
  have hparts : urlParts L t = ⟨[], [], []⟩ := by
    rw [urlParts, splitOnce_eq_none.2 hsep]
  simp [safeNext, Option.filter, hne, h, hparts]

theorem safeNext_of_refused {t : List Char} (h : refused t = true) : safeNext L (some t) = ['/'] := by
  unfold safeNext
  cases hfilter : Option.filter (· ≠ []) (some t) with
  | none => rfl
  | some t' =>
    obtain rfl : t = t' := Option.some.inj (Option.filter_eq_some_iff.1 hfilter).1
    simp [h]

/-! ## What the browser makes of it -/

/-- What the browser keeps of a text behind a slash. -/
def kept (t : List Char) : List Char :=
  (trimEndMatches isC0OrSpace t).filter fun c => !isTabOrNewline c

theorem resolve_slash (W : HostParser L) (site : Site) (t : List Char) :
    resolve W site ('/' :: t) = relativeOrigin W site ('/' :: kept t) := by
  have htrim : trimMatches isC0OrSpace ('/' :: t) = '/' :: trimEndMatches isC0OrSpace t :=
    @trimEndMatches_append_cons '/' isC0OrSpace [] t (by decide)
  have hkept : ('/' :: trimEndMatches isC0OrSpace t).filter (fun c => !isTabOrNewline c) =
      '/' :: kept t := List.filter_cons_of_pos (by decide)
  have hscheme : schemeOf ('/' :: kept t) = none := rfl
  rw [resolve, htrim, hkept, hscheme]

theorem resolve_home (W : HostParser L) (site : Site) : resolve W site ['/'] = some site.origin :=
  resolve_slash W site []

/-- Nothing but carriage returns is dropped of a text that is not refused. -/
theorem kept_eq_cons {t rest : List Char} {c : Char} (h : ∀ c ∈ t, c ≠ '\\' ∧ c ≠ '\t' ∧ c ≠ '\n')
    (hkept : kept t = c :: rest) (hc : isSlash c = true) :
    ∃ returns rest', t = returns ++ '/' :: rest' ∧ ∀ d ∈ returns, d = '\r' := by
  obtain ⟨dropped, l, htrim, hdropped, -, -⟩ := List.filter_eq_cons_iff.1 hkept
  obtain ⟨tail, htail⟩ := trimEndMatches_isPrefix isC0OrSpace t
  have ht : t = dropped ++ c :: (l ++ tail) := by
    rw [← htail, htrim]
    simp
  have hslash : c = '/' := by
    have hback := (h c (by rw [ht]; simp)).1
    simpa [isSlash, hback] using hc
  subst hslash
  refine ⟨dropped, l ++ tail, ht, fun d hd => ?_⟩
  obtain ⟨-, htab, hfeed⟩ := h d (by rw [ht]; simp [hd])
  have hbreak := hdropped d hd
  simpa [isTabOrNewline, htab, hfeed] using hbreak

theorem kept_returns {returns rest : List Char} (h : ∀ c ∈ returns, c = '\r') :
    kept (returns ++ '/' :: rest) = '/' :: kept rest := by
  have hnone : returns.filter (fun c => !isTabOrNewline c) = [] := by
    rw [List.filter_eq_nil_iff]
    intro c hc
    rw [h c hc]
    decide
  rw [kept, trimEndMatches_append_cons (by decide), List.filter_append, hnone, List.nil_append]
  exact List.filter_cons_of_pos (by decide)

theorem resolve_smuggled (W : HostParser L) (site : Site) {t rest : List Char}
    (h : Smuggles t rest) :
    resolve W site t = authorityOrigin W site.scheme (clientAuthority rest) := by
  obtain ⟨-, returns, -, hreturns, rfl⟩ := h
  rw [resolve_slash, kept_returns hreturns]
  rfl

theorem resolve_plain (W : HostParser L) (site : Site) {t : List Char} (h : refused t = false)
    (hno : ∀ rest, ¬ Smuggles t rest) : resolve W site t = some site.origin := by
  obtain ⟨hchars, ⟨t, rfl⟩, htwo, -⟩ := refused_eq_false_iff.1 h
  rw [List.singleton_append] at h hchars htwo hno ⊢
  rw [List.forall_mem_cons] at hchars
  rw [resolve_slash]
  cases hkept : kept t with
  | nil => rfl
  | cons c rest =>
    have hslash : isSlash c = false := by
      by_contra hc
      obtain ⟨returns, rest', rfl, hreturns⟩ := kept_eq_cons hchars.2 hkept (by simpa using hc)
      -- with nothing dropped the text would start with two slashes
      have hne : returns ≠ [] := by
        rintro rfl
        exact htwo ⟨rest', rfl⟩
      exact hno rest' ⟨h, returns, hne, hreturns, rfl⟩
    show (if isSlash '/' && isSlash c then _ else some site.origin) = _
    rw [hslash]
    rfl

/-- The browser stays on the site exactly when no slash, carriage returns and slash pass the
filter, or the authority they start is the site's own. -/
theorem stays_home_iff (L : Lowercase) (W : HostParser L) (site : Site)
    (target : Option (List Char)) :
    StaysHome L W site target ↔
      ∀ t rest, target = some t → Smuggles t rest →
        authorityOrigin W site.scheme (clientAuthority rest) = some site.origin := by
  unfold StaysHome
  cases target with
  | none =>
      have hhome : resolve W site (safeNext L none) = some site.origin := resolve_home W site
      simp [hhome]
  | some t =>
      cases hrefused : refused t with
      | true =>
          rw [safeNext_of_refused hrefused, resolve_home]
          refine ⟨fun _ t' rest ht h => ?_, fun _ => rfl⟩
          obtain rfl := Option.some.inj ht
          exact absurd (hrefused.symm.trans h.1) (by decide)
      | false =>
          rw [safeNext_of_passes hrefused]
          constructor
          · intro hhome t' rest ht h
            obtain rfl := Option.some.inj ht
            rw [← resolve_smuggled W site h, hhome]
          · intro hsite
            by_cases hsmuggles : ∃ rest, Smuggles t rest
            · obtain ⟨rest, h⟩ := hsmuggles
              rw [resolve_smuggled W site h, hsite t rest rfl h]
            · exact resolve_plain W site hrefused (not_exists.1 hsmuggles)

/-- The browser leaves for the host behind the carriage return. -/
theorem carriage_return_leaves :
    safeNext asciiLowercase (some "/\r/evil.com".toList) = "/\r/evil.com".toList ∧
      resolve asciiHosts ⟨true, "dgx.example.org".toList, none⟩ "/\r/evil.com".toList =
        some (.tuple "https".toList "evil.com".toList none) ∧
      ¬ StaysHome asciiLowercase asciiHosts ⟨true, "dgx.example.org".toList, none⟩
        (some "/\r/evil.com".toList) := by
  have hnext : safeNext asciiLowercase (some "/\r/evil.com".toList) = "/\r/evil.com".toList := by
    decide
  have hleaves : resolve asciiHosts ⟨true, "dgx.example.org".toList, none⟩ "/\r/evil.com".toList =
      some (.tuple "https".toList "evil.com".toList none) := by
    decide +kernel
  refine ⟨hnext, hleaves, ?_⟩
  rw [StaysHome, hnext, hleaves]
  decide

end Portal.Url
