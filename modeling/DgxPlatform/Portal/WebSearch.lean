import DgxPlatform.Lib.Run
import DgxPlatform.Portal.AddressFilter
import DgxPlatform.Portal.FileTools
import DgxPlatform.Portal.Url

/-! # The web tools of the chat

A search engine turns a question into links, a crawler reads pages. The model may open the
links of its searches only, and which these are is read from the log that the tools write.

The search engine, the crawler and the resolver are a `World`, one for each call; the
resolver answers each of its questions on its own. A call is what the arguments of the model
come to (`Call.parse`), so that a count or an address may be read from any number.

* `search_spec`: a search lists accepted addresses, each once.
* `mem_readLoop`, `total_readLoop`: where the content of a page comes from, and how much there is.
-/

namespace Portal.WebSearch

open Accounts (pyIsSpace pyStrip)
open AddressFilter (isBlockedIp)
open Conversations (truthy pyDumps)
open FileTools (pyStr pyInt)
open Text (Lowercase trimEndMatches)
open Url (urlParts)

def BANNER_LINES : List (List Char) :=
  ["continuer sans accepter", "utilisons des cookies", "accepter les cookies", "gérer mes choix",
    "gerer mes choix", "politique de confidentialité", "votre carte de paiement", "votre abonnement",
    "n'a pas encore été validé", "abonnez-vous", "accept cookies", "privacy preferences", "consent",
    "enable javascript", "activez javascript", "required part of this site"].map String.toList

def NOISE_PREFIXES : List (List Char) := ["Vidéo Nouvelle notification", "Nouvelle notification"].map String.toList

def MIN_USEFUL_WORDS : Nat := 60
def MAX_RESULTS : Int := 8
def MAX_PAGES : Nat := 4
def MAX_CHARS_PAGE : Nat := 6000
def MAX_CHARS_TOTAL : Nat := 20000

/-! ## What answers the tools -/

/-- A question to the resolver: for a search result, for an address to open, for the final
address of a crawl result. -/
inductive Lookup where
  | found (i : Nat)
  | asked (i : Nat)
  | landed (i : Nat)
deriving DecidableEq, Repr

/-- Why a service gave no JSON. -/
inductive Failure where
  | connectionError
  | readTimeout
  | httpError
  | jsonDecodeError
deriving DecidableEq, Repr

def Failure.kind : Failure → List Char
  | .connectionError => "ConnectionError".toList
  | .readTimeout => "ReadTimeout".toList
  | .httpError => "HTTPError".toList
  | .jsonDecodeError => "JSONDecodeError".toList

/-- The texts of the addresses of a host, the answer to a query, and to a crawl request. -/
structure World where
  lookup : Lookup → List Char → Option (List (List Char))
  searx : List (String × List Char) → Except Failure Json
  crawl : Json → Except Failure Json

/-! ## Addresses -/

section Addresses

variable (L : Lowercase) (resolve : List Char → Option (List (List Char)))

def hostOf (url : List Char) : Option (List Char × List Char) := some ((urlParts L url).scheme, (urlParts L url).host)

/-- `none`: the host was not found. -/
def resolvedBlocked (host : List Char) : Option Bool := (resolve host).map fun addrs => addrs.any isBlockedIp

/-- The host without the brackets of an IPv6 address. -/
def bareHost (host : List Char) : List Char := trimEndMatches (· == ']') (host.dropWhile (· == '['))

def isWeb (scheme : List Char) : Bool := scheme = "http".toList || scheme = "https".toList

def publicUrl (url : List Char) : Except (List Char) Unit :=
  match hostOf L url with
  | none => .error "URL illisible.".toList
  | some (scheme, host) =>
      if !isWeb scheme then .error "Seuls http et https sont acceptés.".toList
      else if host = [] then .error "URL sans hôte.".toList
      else if (Ip.parse (bareHost host)).isSome then
        if isBlockedIp (bareHost host) then .error "Adresse interne refusée.".toList else .ok ()
      else
        match resolvedBlocked resolve host with
        | none => .error "Nom d'hôte introuvable.".toList
        | some true => .error "Cet hôte pointe vers un réseau interne, refusé.".toList
        | some false => .ok ()

/-- The crawler's final address is internal, with certainty. -/
def internalTarget (url : List Char) : Bool :=
  match hostOf L url with
  | none => false
  | some (scheme, host) =>
      if !isWeb scheme || host = [] then false
      else if (Ip.parse (bareHost host)).isSome then isBlockedIp (bareHost host)
      else (resolvedBlocked resolve host).getD false

end Addresses

/-! ## Pages -/

/-- A line as it is kept, `none` for a banner. -/
def cleanLine (L : Lowercase) (line : List Char) : Option (List Char) :=
  let l := trimEndMatches pyIsSpace line
  if BANNER_LINES.any fun m => Text.contains (L.lower l) m then none
  else
    let stripped := l.dropWhile fun c => c == '*' || c == ' '
    match NOISE_PREFIXES.find? fun p => p.isPrefixOf stripped with
    | some p => some ((stripped.drop p.length).dropWhile pyIsSpace)
    | none => some l

/-- Blank lines in a row become one. -/
def foldBlank : Bool → List (List Char) → List (List Char)
  | _, [] => []
  | empty, l :: ls =>
      if pyStrip l ≠ [] then l :: foldBlank false ls
      else if !empty then [] :: foldBlank true ls
      else foldBlank empty ls

def clean (L : Lowercase) (text : List Char) : List Char :=
  pyStrip (['\n'].intercalate (foldBlank false ((text.splitOn '\n').filterMap (cleanLine L))))

def tooPoor (text : List Char) : Option (List Char) :=
  if ((text.splitOnP pyIsSpace).filter fun w => w.length > 3).length < MIN_USEFUL_WORDS then
    some "Page sans contenu exploitable (chargée en JavaScript, ou accès refusé).".toList
  else none

/-! ## Reading JSON -/

def textAt (key : String) (v : Json) : List Char := ((v.get? key).bind Json.str?).getD []

/-- The list under `results`. -/
def resultsOf (v : Json) : List Json := ((v.get? "results").bind Json.arr?).getD []

/-! ## Searching -/

/-- One result of a search, as it is handed to the model. -/
structure Found where
  title : List Char
  url : List Char
  excerpt : List Char
deriving DecidableEq, Repr

def Found.json (f : Found) : Json := .obj [("title", .str f.title), ("url", .str f.url), ("excerpt", .str f.excerpt)]

def foundOf (url : List Char) (item : Json) : Found :=
  ⟨(textAt "title" item).take 200, url, (textAt "content" item).take 400⟩

section Tools

variable (L : Lowercase)

def searchLoop (w : World) (count : Nat) : Nat → List Json → List (List Char) → List Found → List Found
  | _, [], _, out => out
  | i, item :: rest, seen, out =>
      let url := pyStrip (textAt "url" item)
      if url = [] ∨ url ∈ seen ∨ publicUrl L (w.lookup (.found i)) url ≠ .ok () then
        searchLoop w count (i + 1) rest seen out
      else
        let out := out ++ [foundOf url item]
        if out.length ≥ count then out else searchLoop w count (i + 1) rest (url :: seen) out

def search (w : World) (question : List Char) (count : Int) : List Found × Option (List Char) :=
  let question := (pyStrip question).take 400
  if question = [] then ([], some "Question vide.".toList)
  else
    let count := (max 1 (min count MAX_RESULTS)).toNat
    match w.searx [("q", question), ("format", "json".toList), ("language", "fr".toList), ("safesearch", ['1'])] with
    | .error f => ([], some ("Moteur de recherche injoignable (".toList ++ f.kind ++ ").".toList))
    | .ok v => (searchLoop L w count 0 (resultsOf v) [] [], none)

/-! ## Reading -/

def CRAWLER_CONFIG : Json :=
  .obj [("type", .str "CrawlerRunConfig".toList), ("params", .obj
    [("cache_mode", .str "bypass".toList),
     ("excluded_tags", .arr
       (["nav", "footer", "header", "aside", "script", "style", "form"].map fun t => .str t.toList)),
     ("markdown_generator", .obj [("type", .str "DefaultMarkdownGenerator".toList), ("params", .obj
       [("options", .obj [("ignore_links", .bool true), ("ignore_images", .bool true)])])])])]

def crawlBody (urls : List (List Char)) : Json :=
  .obj [("urls", .arr (urls.map .str)), ("crawler_config", CRAWLER_CONFIG)]

/-- What a crawl result comes to. -/
inductive Info where
  | refused (error : List Char)
  | page (ok : Bool) (markdown title : List Char)
deriving DecidableEq, Repr

/-- The cleaned markdown if the crawler made one, else the raw one, or a text. -/
def markdownOf (item : Json) : List Char :=
  match item.get? "markdown" with
  | some (.obj fields) =>
      let found := ((Json.obj fields).get? "fit_markdown").filter truthy <|> (Json.obj fields).get? "raw_markdown"
      (found.bind Json.str?).getD []
  | some (.str s) => s
  | _ => []

/-- `metadata.title`. -/
def titleOf (item : Json) : List Char := (((item.get? "metadata").bind fun m => m.get? "title").bind Json.str?).getD []

/-- The final address, if it is a text. -/
def redirectedUrl (item : Json) : Option (List Char) := (item.get? "redirected_url").bind Json.str?

def pageInfo (item : Json) : Info :=
  .page ((item.get? "success").any truthy) ((markdownOf item).take MAX_CHARS_PAGE) ((titleOf item).take 200)

def infoOf (w : World) (i : Nat) (item : Json) : Info :=
  match redirectedUrl item with
  | some final =>
      if internalTarget L (w.lookup (.landed i)) final then
        .refused "Redirection vers une adresse interne, page refusée.".toList
      else pageInfo item
  | none => pageInfo item

/-- The crawl results under their addresses. -/
def keyed (w : World) (items : List Json) : List (List Char × Info) :=
  items.mapIdx fun i item => (textAt "url" item, infoOf L w i item)

def trimSlashes (t : List Char) : List Char := trimEndMatches (· == '/') t

/-- The last result with the address; without one, the first whose address differs in slashes only. -/
def supply (results : List (List Char × Info)) (u : List Char) : Option Info :=
  ((results.reverse.find? fun r => decide (r.1 = u)) <|>
    results.find? fun r => decide (trimSlashes r.1 = trimSlashes u)).map Prod.snd

/-- Markdown and title of a result that is fine. -/
def Info.usable : Info → Option (List Char × List Char)
  | .page true markdown title => some (markdown, title)
  | _ => none

def Info.error? : Info → Option (List Char)
  | .refused e => some e
  | .page _ _ _ => none

def errorOf (results : List (List Char × Info)) (u : List Char) : List Char :=
  ((results.reverse.find? fun r => decide (r.1 = u)).bind fun r => r.2.error?).getD "Page illisible.".toList

/-- One page of an answer. -/
inductive Page where
  | failed (url error : List Char)
  | poor (url title error : List Char)
  | content (url title text : List Char)
deriving DecidableEq, Repr

def Page.json : Page → Json
  | .failed url error => .obj [("url", .str url), ("error", .str error)]
  | .poor url title error => .obj [("url", .str url), ("title", .str title), ("error", .str error)]
  | .content url title text => .obj [("url", .str url), ("title", .str title), ("content", .str text)]

/-- The characters of its content. -/
def Page.size : Page → Nat
  | .content _ _ text => text.length
  | _ => 0

def readLoop (results : List (List Char × Info)) : Nat → List (List Char × Except (List Char) Unit) → List Page
  | _, [] => []
  | total, (u, .error e) :: rest => .failed u e :: readLoop results total rest
  | total, (u, .ok _) :: rest =>
      match (supply results u).bind Info.usable with
      | none => .failed u (errorOf results u) :: readLoop results total rest
      | some (markdown, title) =>
          match tooPoor (clean L markdown) with
          | some issue => .poor u title issue :: readLoop results total rest
          | none =>
              let text := (clean L markdown).take (MAX_CHARS_TOTAL - total)
              .content u title text :: readLoop results (total + text.length) rest

/-- The addresses with what `publicUrl` says of each. -/
def checked (w : World) (urls : List (List Char)) : List (List Char × Except (List Char) Unit) :=
  (urls.take MAX_PAGES).mapIdx fun i u => (u, publicUrl L (w.lookup (.asked i)) u)

def toRead (checked : List (List Char × Except (List Char) Unit)) : List (List Char) :=
  checked.filterMap fun c =>
    match c.2 with
    | .ok _ => some c.1
    | .error _ => none

def read (w : World) (urls : List (List Char)) : List Page × Option (List Char) :=
  let checked := checked L w urls
  if toRead checked = [] then (readLoop L [] 0 checked, none)
  else
    match w.crawl (crawlBody (toRead checked)) with
    | .error f => ([], some ("Lecteur de pages injoignable (".toList ++ f.kind ++ ").".toList))
    | .ok body => (readLoop L (keyed L w (resultsOf body)) 0 checked, none)

/-! ## The calls -/

def strArg (args : Json) (k : String) : List Char := (args.get? k).elim [] pyStr

def urlArgs (args : Json) : List (List Char) :=
  match args.get? "urls" with
  | some (.arr a) => (a.map pyStr).take MAX_PAGES
  -- Python goes through the characters of a string
  | some (.str s) => (s.map fun c => [c]).take MAX_PAGES
  | _ => []

/-- `none`: the tool raises. -/
def countArg (args : Json) : Option Int :=
  match args.get? "count" with
  | none => some 6
  | some v => if truthy v then pyInt v else some 6

/-- A call of a web tool with its arguments read. -/
inductive Call where
  | search (question : List Char) (count : Option Int)
  | read (urls : List (List Char))
  | unknown
deriving DecidableEq, Repr

def Call.parse (name : List Char) (args : Json) : Call :=
  if name = "recherche_web".toList then .search (strArg args "question") (countArg args)
  else if name = "lire_pages".toList then .read (urlArgs args)
  else .unknown

example : Call.parse "lire_pages".toList (.obj [("urls", .str "ab".toList)]) = .read [['a'], ['b']] := by decide

/-- What is handed back to the model. -/
inductive Answer where
  | searchFailed (error : List Char)
  | noResult
  | results (found : List Found)
  | allRefused (refused : List (List Char))
  | readFailed (error : List Char)
  | pages (list : List Page) (refused : List (List Char))
  | unknownTool
deriving DecidableEq, Repr

def refusedList (refused : List (List Char)) : List Char := ", ".toList.intercalate (refused.take 4)

def Answer.text : Answer → List Char
  | .searchFailed e => "La recherche a échoué : ".toList ++ e
  | .noResult => "Aucun résultat.".toList
  | .results found => pyDumps (.obj [("results", .arr (found.map Found.json))])
  | .allRefused refused =>
      ("Aucune de ces adresses ne vient d'une recherche de cette conversation : je ne peux ouvrir que les résultats " ++
        "affichés. Refusées : ").toList ++ refusedList refused
  | .readFailed e => "La lecture a échoué : ".toList ++ e
  | .pages ps refused =>
      pyDumps (.obj [("pages", .arr (ps.map Page.json))]) ++
        if refused = [] then []
        else " (adresses refusées, hors résultats de recherche : ".toList ++ refusedList refused ++ ")".toList
  | .unknownTool => "Outil inconnu.".toList

/-- The log's entry of a search. -/
def searchEntry (question : List Char) (found : List Found) (error : Option (List Char)) : Json :=
  .obj [("step", .str "search_done".toList), ("tool", .str "searxng".toList), ("question", .str question),
    ("count", .num found.length), ("error", error.elim .null .str),
    ("sources", .arr ((found.take 8).map fun r => .obj [("title", .str r.title), ("url", .str r.url)]))]

def Page.failure : Page → Option Json
  | .failed url error => if error = [] then none else some (.obj [("url", .str url), ("reason", .str error)])
  | .poor url _ error => if error = [] then none else some (.obj [("url", .str url), ("reason", .str error)])
  | .content _ _ _ => none

/-- The log's entry of a reading. -/
def readEntry (urls refused : List (List Char)) (pages : List Page) (error : Option (List Char)) : Json :=
  .obj [("step", .str "reading_done".toList), ("tool", .str "crawl4ai".toList), ("urls", .arr (urls.map .str)),
    ("read", .num (pages.countP fun p => p.size ≠ 0)), ("error", error.elim .null .str),
    ("refused", .arr (refused.map .str)), ("failures", .arr (pages.filterMap Page.failure))]

/-- The sources an entry lists, if it is one of a search. -/
def entryUrls (e : Json) : List (List Char) :=
  if (e.get? "step").bind Json.str? = some "search_done".toList then
    (((e.get? "sources").bind Json.arr?).getD []).filterMap fun s => (s.get? "url").bind Json.str?
  else []

/-- The addresses that may be opened. -/
def known (log : List Json) : List (List Char) := log.flatMap entryUrls

def searchAnswer (found : List Found) : Option (List Char) → Answer
  | some e => .searchFailed e
  | none => if found = [] then .noResult else .results found

def readAnswer (ps : List Page) (refused : List (List Char)) : Option (List Char) → Answer
  | some e => .readFailed e
  | none => .pages ps refused

/-- The addresses of a call that may be opened. -/
def allowed (log : List Json) (urls : List (List Char)) : List (List Char) :=
  urls.filter fun u => decide (u ∈ known log)

/-- The answer, `none` if the tool raised, and the log. -/
def exec (w : World) (call : Call) (log : List Json) : Option Answer × List Json :=
  match call with
  | .search _ none => (none, log)
  | .search question (some count) =>
      let question := question.take 400
      let r := search L w question count
      (some (searchAnswer r.1 r.2), log ++ [searchEntry question r.1 r.2])
  | .read urls =>
      let refused := urls.filter fun u => decide (u ∉ known log)
      let urls := allowed log urls
      if urls = [] then (some (.allRefused refused), log)
      else
        let r := read L w urls
        (some (readAnswer r.1 refused r.2), log ++ [readEntry urls refused r.1 r.2])
  | .unknown => (some .unknownTool, log)

/-! ## Runs -/

structure Request where
  world : World
  call : Call

/-- A call that was made: the log it found, and what it answered. -/
structure Event where
  before : List Json
  request : Request
  answer : Option Answer

/-- The log the calls share, and the calls so far. -/
structure Session where
  log : List Json
  events : List Event

def start : Session := ⟨[], []⟩

def step : Run.Step Session Request := fun s r =>
  let (answer, log) := exec L r.world r.call s.log
  some ⟨log, s.events ++ [⟨s.log, r, answer⟩]⟩

variable {L}

/-! ## Which addresses may be opened -/

theorem known_append (log : List Json) (e : Json) : known (log ++ [e]) = known log ++ entryUrls e := by
  rw [known, known, List.flatMap_append, List.flatMap_singleton]

theorem entryUrls_search (question : List Char) (found : List Found) (error : Option (List Char)) :
    entryUrls (searchEntry question found error) = (found.take 8).map Found.url := by
  have hsources : ∀ l : List Found,
      (l.map fun r => Json.obj [("title", .str r.title), ("url", .str r.url)]).filterMap
        (fun s => (s.get? "url").bind Json.str?) = l.map Found.url := by
    intro l
    induction l with
    | nil => rfl
    | cons r l ih =>
      rw [List.map_cons, List.map_cons, ← ih]
      rfl
  have hstep : ((searchEntry question found error).get? "step").bind Json.str? = some "search_done".toList := rfl
  rw [entryUrls, if_pos hstep]
  exact hsources (found.take 8)

theorem entryUrls_read (urls refused : List (List Char)) (pages : List Page) (error : Option (List Char)) :
    entryUrls (readEntry urls refused pages error) = [] := by
  rw [entryUrls, if_neg]
  intro h
  exact absurd (Option.some.inj h) (by decide)

/-- An answer lists an address as a search result. -/
def Answer.Lists (a : Answer) (u : List Char) : Prop := ∃ found, a = .results found ∧ u ∈ found.map Found.url

variable {w : World}

theorem search_error {question e : List Char} {count : Int} (h : (search L w question count).2 = some e) :
    (search L w question count).1 = [] := by
  by_cases hq : (pyStrip question).take 400 = []
  · simp only [search, if_pos hq]
  · simp only [search, if_neg hq] at h ⊢
    split
    · rfl
    · next hok =>
        rw [hok] at h
        cases h

/-- What a search lists: accepted addresses, each once, and no more than were asked for. -/
theorem searchLoop_spec {count i : Nat} {items : List Json} {seen : List (List Char)} {out : List Found}
    (hlen : out.length < count) (hseen : ∀ u, u ∈ seen ↔ u ∈ out.map Found.url) (hnodup : (out.map Found.url).Nodup)
    (hpublic : ∀ f ∈ out, ∃ i, publicUrl L (w.lookup (.found i)) f.url = .ok ()) :
    (searchLoop L w count i items seen out).length ≤ count ∧
      ((searchLoop L w count i items seen out).map Found.url).Nodup ∧
      ∀ f ∈ searchLoop L w count i items seen out, ∃ i, publicUrl L (w.lookup (.found i)) f.url = .ok () := by
  induction items generalizing i seen out with
  | nil => exact ⟨Nat.le_of_lt hlen, hnodup, hpublic⟩
  | cons item rest ih =>
    rw [searchLoop]
    dsimp only
    split
    · exact ih hlen hseen hnodup hpublic
    · next hok =>
        rw [not_or, not_or, not_not] at hok
        obtain ⟨-, hfresh, hyes⟩ := hok
        rw [hseen] at hfresh
        have hnodup' : ((out ++ [foundOf (pyStrip (textAt "url" item)) item]).map Found.url).Nodup := by
          rw [List.map_append, List.map_singleton, List.nodup_append]
          refine ⟨hnodup, List.nodup_singleton _, ?_⟩
          intro a ha b hb
          rw [List.mem_singleton.1 hb]
          intro h
          rw [h] at ha
          exact hfresh ha
        have hpublic' : ∀ f ∈ out ++ [foundOf (pyStrip (textAt "url" item)) item],
            ∃ i, publicUrl L (w.lookup (.found i)) f.url = .ok () := by
          intro f hf
          rcases List.mem_append.1 hf with hf | hf
          · exact hpublic f hf
          · rw [List.mem_singleton.1 hf]
            exact ⟨i, hyes⟩
        split
        · refine ⟨?_, hnodup', hpublic'⟩
          rw [List.length_append, List.length_singleton]
          exact hlen
        · next hmore =>
            refine ih (Nat.lt_of_not_le hmore) ?_ hnodup' hpublic'
            intro u
            rw [List.mem_cons, hseen, List.map_append, List.map_singleton, List.mem_append, List.mem_singleton,
              or_comm]
            rfl

theorem search_spec (w : World) (question : List Char) (count : Int) :
    (search L w question count).1.length ≤ 8 ∧ ((search L w question count).1.map Found.url).Nodup ∧
      ∀ f ∈ (search L w question count).1, ∃ i, publicUrl L (w.lookup (.found i)) f.url = .ok () := by
  have hempty : ([] : List Found).length ≤ 8 ∧ (([] : List Found).map Found.url).Nodup ∧
      ∀ f ∈ ([] : List Found), ∃ i, publicUrl L (w.lookup (.found i)) f.url = .ok () :=
    ⟨Nat.zero_le 8, List.nodup_nil, fun _ hf => absurd hf List.not_mem_nil⟩
  by_cases hq : (pyStrip question).take 400 = []
  · simp only [search, if_pos hq]
    exact hempty
  · simp only [search, if_neg hq]
    split
    · exact hempty
    · next v hv =>
      have hpos : 0 < (max 1 (min count MAX_RESULTS)).toNat := by
        unfold MAX_RESULTS
        omega
      have hle : (max 1 (min count MAX_RESULTS)).toNat ≤ 8 := by
        unfold MAX_RESULTS
        omega
      obtain ⟨hlen, hrest⟩ :=
        @searchLoop_spec L w _ 0 (resultsOf v) [] [] hpos (fun _ => Iff.rfl) List.nodup_nil hempty.2.2
      exact ⟨hlen.trans hle, hrest⟩

variable {log : List Json} {u : List Char}

/-- A call lists what it adds to the addresses that may be opened, and it is a search. -/
theorem known_exec {call : Call} (hu : u ∈ known (exec L w call log).2) :
    u ∈ known log ∨ ∃ question count a, call = .search question count ∧ (exec L w call log).1 = some a ∧ a.Lists u := by
  cases call with
  | unknown => exact Or.inl hu
  | read urls =>
    left
    rw [exec] at hu
    split at hu
    · exact hu
    · -- the entry of a reading has no sources
      rw [known_append, entryUrls_read, List.append_nil] at hu
      exact hu
  | search question count =>
    cases count with
    | none => exact Or.inl hu
    | some count =>
      rw [exec, known_append, List.mem_append] at hu
      rcases hu with hu | hu
      · exact Or.inl hu
      · right
        rw [entryUrls_search] at hu
        obtain ⟨r, hr, hru⟩ := List.mem_map.1 hu
        have hmem := List.mem_of_mem_take hr
        have hnone : (search L w (question.take 400) count).2 = none := by
          cases he : (search L w (question.take 400) count).2 with
          | none => rfl
          | some e =>
            rw [search_error he] at hmem
            exact absurd hmem List.not_mem_nil
        refine ⟨question, some count, .results (search L w (question.take 400) count).1, rfl, ?_, _, rfl,
          List.mem_map.2 ⟨r, hmem, hru⟩⟩
        rw [exec, hnone, searchAnswer, if_neg (List.ne_nil_of_mem hmem)]

/-! ## Where content comes from -/

theorem supply_mem {results : List (List Char × Info)} {info : Info} (h : supply results u = some info) :
    ∃ key, (key, info) ∈ results ∧ (key = u ∨ trimSlashes key = trimSlashes u) := by
  obtain ⟨⟨key, info'⟩, hr, heq⟩ := Option.map_eq_some_iff.1 h
  cases heq
  rcases (Option.orElse_eq_some _ _ _).1 hr with hexact | ⟨-, hslash⟩
  · refine ⟨key, List.mem_reverse.1 (List.mem_of_find?_eq_some hexact), Or.inl ?_⟩
    simpa using List.find?_some hexact
  · refine ⟨key, List.mem_of_find?_eq_some hslash, Or.inr ?_⟩
    simpa using List.find?_some hslash

/-- A page with content was accepted, and a usable result supplied it. -/
theorem mem_readLoop {results : List (List Char × Info)} {u title text : List Char} {total : Nat}
    {checked : List (List Char × Except (List Char) Unit)}
    (h : .content u title text ∈ readLoop L results total checked) :
    (u, .ok ()) ∈ checked ∧
      ∃ markdown, supply results u = some (.page true markdown title) ∧ text <+: clean L markdown := by
  induction checked generalizing total with
  | nil => exact absurd h List.not_mem_nil
  | cons c rest ih =>
    obtain ⟨v, ok⟩ := c
    have hlater : ∀ {total}, .content u title text ∈ readLoop L results total rest →
        (u, .ok ()) ∈ (v, ok) :: rest ∧
          ∃ markdown, supply results u = some (.page true markdown title) ∧ text <+: clean L markdown := by
      intro total hmem
      exact ⟨List.mem_cons_of_mem _ (ih hmem).1, (ih hmem).2⟩
    cases ok with
    | error e =>
      rw [readLoop] at h
      rcases List.mem_cons.1 h with h | h
      · cases h
      · exact hlater h
    | ok x =>
      rw [readLoop] at h
      cases hs : (supply results v).bind Info.usable with
      | none =>
        rw [hs] at h
        rcases List.mem_cons.1 h with h | h
        · cases h
        · exact hlater h
      | some r =>
        obtain ⟨markdown, t⟩ := r
        simp only [hs] at h
        cases hpoor : tooPoor (clean L markdown) with
        | some issue =>
          rw [hpoor] at h
          rcases List.mem_cons.1 h with h | h
          · cases h
          · exact hlater h
        | none =>
          rw [hpoor] at h
          rcases List.mem_cons.1 h with h | h
          · cases h
            obtain ⟨info, hinfo, husable⟩ := Option.bind_eq_some_iff.1 hs
            have hpage : info = .page true markdown title := by
              cases info with
              | refused e => cases husable
              | page ok m t' =>
                cases ok with
                | false => cases husable
                | true =>
                  cases husable
                  rfl
            rw [hpage] at hinfo
            exact ⟨List.mem_cons_self, markdown, hinfo, List.take_prefix _ _⟩
          · exact hlater h

theorem total_readLoop {total : Nat} (h : total ≤ MAX_CHARS_TOTAL) (results : List (List Char × Info))
    (checked : List (List Char × Except (List Char) Unit)) :
    total + ((readLoop L results total checked).map Page.size).sum ≤ MAX_CHARS_TOTAL := by
  induction checked generalizing total with
  | nil => exact h
  | cons c rest ih =>
    obtain ⟨v, ok⟩ := c
    have hskip : ∀ p : Page, p.size = 0 →
        total + ((p :: readLoop L results total rest).map Page.size).sum ≤ MAX_CHARS_TOTAL := by
      intro p hp
      rw [List.map_cons, List.sum_cons, hp, Nat.zero_add]
      exact ih h
    cases ok with
    | error e => exact hskip _ rfl
    | ok x =>
      rw [readLoop]
      split
      · exact hskip _ rfl
      · next markdown title hs =>
          split
          · exact hskip _ rfl
          · -- what is added was cut to what is left
            have hlen : ((clean L markdown).take (MAX_CHARS_TOTAL - total)).length ≤ MAX_CHARS_TOTAL - total :=
              List.length_take_le _ _
            have hleft : total + ((clean L markdown).take (MAX_CHARS_TOTAL - total)).length ≤ MAX_CHARS_TOTAL := by
              omega
            have hrest := ih hleft
            rw [List.map_cons, List.sum_cons, ← Nat.add_assoc]
            exact hrest

theorem infoOf_page {i : Nat} {item : Json} {ok : Bool} {markdown title : List Char}
    (h : infoOf L w i item = .page ok markdown title) :
    markdown = (markdownOf item).take MAX_CHARS_PAGE ∧
      ∀ final, redirectedUrl item = some final → internalTarget L (w.lookup (.landed i)) final = false := by
  unfold infoOf at h
  cases hfinal : redirectedUrl item with
  | none =>
    rw [hfinal] at h
    refine ⟨(Info.page.inj h).2.1.symm, ?_⟩
    intro final hf
    cases hf
  | some final =>
    rw [hfinal] at h
    cases hinternal : internalTarget L (w.lookup (.landed i)) final with
    | true =>
      simp only [hinternal, if_true] at h
      cases h
    | false =>
      simp only [hinternal] at h
      refine ⟨(Info.page.inj h).2.1.symm, ?_⟩
      intro f hf
      cases hf
      exact hinternal

theorem mem_toRead {checked : List (List Char × Except (List Char) Unit)} (h : (u, .ok ()) ∈ checked) :
    u ∈ toRead checked := List.mem_filterMap.2 ⟨_, h, rfl⟩

/-- The pages that are handed back, and the crawl results they were made of. -/
theorem read_ok {urls : List (List Char)} (h : (read L w urls).2 = none) :
    ∃ items, (read L w urls).1 = readLoop L (keyed L w items) 0 (checked L w urls) ∧
      (toRead (checked L w urls) ≠ [] →
        ∃ body, w.crawl (crawlBody (toRead (checked L w urls))) = .ok body ∧ items = resultsOf body) := by
  by_cases hnil : toRead (checked L w urls) = []
  · refine ⟨[], ?_, fun hne => absurd hnil hne⟩
    simp only [read, if_pos hnil]
    rfl
  · simp only [read, if_neg hnil] at h ⊢
    cases hcrawl : w.crawl (crawlBody (toRead (checked L w urls))) with
    | error f =>
      rw [hcrawl] at h
      cases h
    | ok body => exact ⟨resultsOf body, rfl, fun _ => ⟨body, rfl, rfl⟩⟩

theorem mem_checked {urls : List (List Char)} (h : (u, .ok ()) ∈ checked L w urls) :
    ∃ i, i < MAX_PAGES ∧ urls[i]? = some u ∧ publicUrl L (w.lookup (.asked i)) u = .ok () := by
  obtain ⟨i, hi, heq⟩ := List.mem_mapIdx.1 h
  rw [List.length_take] at hi
  have hlt : i < MAX_PAGES := by omega
  have hget : (urls.take MAX_PAGES)[i]? = urls[i]? := List.getElem?_take_of_lt hlt
  refine ⟨i, hlt, ?_, ?_⟩
  · rw [← hget, List.getElem?_eq_getElem (by rw [List.length_take]; exact hi)]
    exact congrArg some (Prod.mk.inj heq).1
  · rw [← (Prod.mk.inj heq).1]
    exact (Prod.mk.inj heq).2

/-- A search that lists the address. -/
def Event.Offers (e : Event) (u : List Char) : Prop :=
  ∃ question count a, e.request.call = .search question count ∧ e.answer = some a ∧ a.Lists u

variable (L) in
/-- What the property says of the pages that a call hands back. -/
structure Confined (earlier : List Event) (e : Event) (ps : List Page) : Prop where
  listed : ∀ u title text, .content u title text ∈ ps → ∃ e' ∈ earlier, e'.Offers u
  accepted : ∀ u title text, .content u title text ∈ ps → ∃ urls i, e.request.call = .read urls ∧ i < MAX_PAGES ∧
    (allowed e.before urls)[i]? = some u ∧ publicUrl L (e.request.world.lookup (.asked i)) u = .ok ()
  supplied : ∀ u title text, .content u title text ∈ ps → ∃ sent body m item, u ∈ sent ∧
    e.request.world.crawl (crawlBody sent) = .ok body ∧ (resultsOf body)[m]? = some item ∧
    (textAt "url" item = u ∨ trimSlashes (textAt "url" item) = trimSlashes u) ∧
    text <+: clean L ((markdownOf item).take MAX_CHARS_PAGE) ∧
    ∀ final, redirectedUrl item = some final → internalTarget L (e.request.world.lookup (.landed m)) final = false
  total : (ps.map Page.size).sum ≤ MAX_CHARS_TOTAL

variable (L) in
/-- What holds of a session after any calls. -/
structure Session.Safe (s : Session) : Prop where
  offered : ∀ u ∈ known s.log, ∃ e ∈ s.events, e.Offers u
  confined : ∀ k e ps refused, s.events[k]? = some e → e.answer = some (.pages ps refused) →
    Confined L (s.events.take k) e ps

theorem start_safe : start.Safe L where
  offered := fun _ hu => absurd hu List.not_mem_nil
  confined := fun _ _ _ _ hk _ => absurd hk (by simp [start])

theorem exec_pages {call : Call} {ps : List Page} {refused : List (List Char)}
    (h : (exec L w call log).1 = some (.pages ps refused)) :
    ∃ urls, call = .read urls ∧ read L w (allowed log urls) = (ps, none) := by
  cases call with
  | unknown => cases h
  | search question count =>
    cases count with
    | none => cases h
    | some count =>
      rw [exec] at h
      unfold searchAnswer at h
      split at h
      · cases h
      · split at h
        · cases h
        · cases h
  | read urls =>
    refine ⟨urls, rfl, ?_⟩
    rw [exec] at h
    split at h
    · cases h
    · cases herror : (read L w (allowed log urls)).2 with
      | some e =>
        simp only [herror, readAnswer] at h
        cases h
      | none =>
        simp only [herror, readAnswer] at h
        cases h
        rw [← herror]

/-- The pages of a call, if each address that may be opened was offered before. -/
theorem exec_confined {call : Call} {ps : List Page} {refused : List (List Char)}
    {earlier : List Event} (hoffered : ∀ u ∈ known log, ∃ e ∈ earlier, e.Offers u)
    (h : (exec L w call log).1 = some (.pages ps refused)) :
    Confined L earlier ⟨log, ⟨w, call⟩, (exec L w call log).1⟩ ps := by
  obtain ⟨urls, rfl, hread⟩ := exec_pages h
  obtain ⟨items, hps, hitems⟩ := read_ok (congrArg Prod.snd hread)
  rw [hread] at hps
  dsimp only at hps
  subst hps
  refine ⟨?_, ?_, ?_, ?_⟩
  · intro u title text hmem
    obtain ⟨i, -, hi, -⟩ := mem_checked (mem_readLoop hmem).1
    have hallowed := List.mem_filter.1 (List.mem_of_getElem? hi)
    exact hoffered u (of_decide_eq_true hallowed.2)
  · intro u title text hmem
    obtain ⟨i, hlt, hi, hpublic⟩ := mem_checked (mem_readLoop hmem).1
    exact ⟨urls, i, rfl, hlt, hi, hpublic⟩
  · intro u title text hmem
    obtain ⟨hchecked, markdown, hsupply, htext⟩ := mem_readLoop hmem
    have hsent := mem_toRead hchecked
    obtain ⟨body, hbody, rfl⟩ := hitems (List.ne_nil_of_mem hsent)
    obtain ⟨key, hkey, hsame⟩ := supply_mem hsupply
    obtain ⟨m, hm, heq⟩ := List.mem_mapIdx.1 hkey
    obtain ⟨hurl, hinfo⟩ := Prod.mk.inj heq
    obtain ⟨hmarkdown, hfinal⟩ := infoOf_page hinfo
    refine ⟨_, body, m, (resultsOf body)[m], hsent, hbody, List.getElem?_eq_getElem hm, ?_, ?_, hfinal⟩
    · rw [hurl]
      exact hsame
    · rw [← hmarkdown]
      exact htext
  · have htotal :=
      total_readLoop (L := L) (Nat.zero_le MAX_CHARS_TOTAL) (keyed L w items) (checked L w (allowed log urls))
    rw [Nat.zero_add] at htotal
    exact htotal

theorem step_safe (s : Session) (r : Request) (s' : Session) (hs : s.Safe L) (h : step L s r = some s') :
    s'.Safe L := by
  have hs' := (Option.some.inj h).symm
  subst hs'
  refine ⟨?_, ?_⟩
  · intro u hu
    rcases known_exec hu with hu | ⟨question, count, a, hcall, ha, hlists⟩
    · obtain ⟨e, he, hoffers⟩ := hs.offered u hu
      exact ⟨e, List.mem_append_left _ he, hoffers⟩
    · exact ⟨_, List.mem_append_right _ (List.mem_singleton_self _), question, count, a, hcall, ha, hlists⟩
  · intro k e ps refused hk ha
    have hlen := (List.getElem?_eq_some_iff.1 hk).1
    rw [List.length_append, List.length_singleton] at hlen
    rcases Nat.lt_or_ge k s.events.length with hlt | hge
    · -- an earlier call
      rw [List.getElem?_append_left hlt] at hk
      rw [List.take_append_of_le_length (Nat.le_of_lt hlt)]
      exact hs.confined k e ps refused hk ha
    · -- the call of this step
      have hkeq : k = s.events.length := by omega
      subst hkeq
      rw [List.getElem?_concat_length] at hk
      have he := (Option.some.inj hk).symm
      subst he
      rw [List.take_left']
      · exact exec_confined hs.offered ha
      · rfl

end Tools

theorem exists_run (L : Lowercase) (requests : List Request) :
    ∃ s, Run.exec (step L) start requests = some s ∧ s.events.map Event.request = requests := by
  suffices hall : ∀ s : Session, ∃ t, Run.exec (step L) s requests = some t ∧
      t.events.map Event.request = s.events.map Event.request ++ requests by
    obtain ⟨t, ht, hrequests⟩ := hall start
    exact ⟨t, ht, hrequests⟩
  induction requests with
  | nil => exact fun s => ⟨s, rfl, (List.append_nil _).symm⟩
  | cons r rs ih =>
    intro s
    obtain ⟨t, ht, hrequests⟩ :=
      ih ⟨(exec L r.world r.call s.log).2, s.events ++ [⟨s.log, r, (exec L r.world r.call s.log).1⟩]⟩
    refine ⟨t, ht, ?_⟩
    rw [hrequests, List.map_append, List.append_assoc]
    rfl

/-- Over any run, the pages an answer carries are confined to what a search offered. -/
theorem pages_confined {L : Lowercase} {requests : List Request} {s : Session}
    (hrun : Run.exec (step L) start requests = some s) {k : Nat} {e : Event} {ps : List Page}
    {refused : List (List Char)} (hk : s.events[k]? = some e) (ha : e.answer = some (.pages ps refused)) :
    Confined L (s.events.take k) e ps := by
  have hsafe : s.Safe L := Run.exec_kept step_safe start_safe hrun
  exact hsafe.confined k e ps refused hk ha

/-! ## A run -/

def sampleUrl : List Char := "https://pages.example/a".toList

/-- Enough words for a page. -/
def sampleText : List Char := [' '].intercalate (List.replicate 60 "mots".toList)

/-- One public page, which the search finds and the crawler reads. -/
def sampleWorld : World where
  lookup := fun _ _ => some ["93.184.216.34".toList]
  searx := fun _ => .ok (.obj [("results", .arr [.obj [("url", .str sampleUrl), ("title", .str ['A'])]])])
  crawl := fun _ => .ok (.obj [("results", .arr [.obj [("url", .str sampleUrl), ("success", .bool true),
    ("markdown", .str sampleText)]])])

def sampleSearch : Request := ⟨sampleWorld, .search "mots".toList (some 6)⟩

def sampleRead : Request := ⟨sampleWorld, .read [sampleUrl]⟩

def sampleSession : Session := ((Run.exec (step Text.asciiLowercase) start [sampleSearch, sampleRead]).getD start)

def samplePages : List Page := [.content sampleUrl [] sampleText]

theorem pages_confined_sample : ∃ e, sampleSession.events[1]? = some e ∧ e.answer = some (.pages samplePages []) ∧
    Confined Text.asciiLowercase (sampleSession.events.take 1) e samplePages := by
  have hanswer : (sampleSession.events[1]?.bind Event.answer) = some (.pages samplePages []) := by decide +kernel
  obtain ⟨e, he, ha⟩ := Option.bind_eq_some_iff.1 hanswer
  have hrun : Run.exec (step Text.asciiLowercase) start [sampleSearch, sampleRead] = some sampleSession := rfl
  exact ⟨e, he, ha, pages_confined hrun he ha⟩

end Portal.WebSearch
