import DgxPlatform.Lib.Markup
import DgxPlatform.Portal.S3Request
import Mathlib.Data.List.AList

/-! # The retention of backups

`upload` stores an archive in the bucket, lists the archives and deletes all but the
`keep` first ones by descending name. The bucket is a finite map; the server answers
a listing in pages, each an XML text that the code searches for tags as substrings.
-/

namespace Portal.Backups

open Text Markup
open S3Request (Config)

structure Object where
  content : List UInt8
  time : Nat
deriving DecidableEq, Repr

/-- The bucket: from key to object. -/
abbrev Bucket := AList fun _ : List Char => Object

inductive Method where
  | get
  | put
  | delete
deriving DecidableEq, Repr

structure Request where
  method : Method
  key : List Char
  query : List (List Char × List Char)
  range : Option (List Char)
  body : Option (List UInt8 × List Char)

structure Response where
  contentRange : Option (List Char)
  contentLength : Option Nat
  text : Except (List Char) (List Char)

/-- `Get`. -/
inductive Get where
  | found (r : Response)
  | missing
  | empty

/-- Work on the bucket: a result or an error, and the bucket behind it. -/
abbrev Work := ExceptT (List Char) (StateM Bucket)

/-! ## `s3.rs` -/

section Client

variable (send : Request → Work Get)

def get (key : List Char) (range : Option (List Char)) : Work Get := send ⟨.get, key, [], range, none⟩

def put (key : List Char) (data : List UInt8) (contentType : List Char) : Work Unit := do
  match ← send ⟨.put, key, [], none, some (data, contentType)⟩ with
  | .found _ => pure ()
  | _ => throw "S3 refused the write".toList

def delete (key : List Char) : Work Unit := do
  let _ ← send ⟨.delete, key, [], none, none⟩

/-- `str::parse::<u64>`. -/
def parseU64 (t : List Char) : Option Nat :=
  let digits := if t.head? = some '+' then t.tail else t
  let n := Nat.ofDigitChars 10 digits 0
  if digits ≠ [] ∧ digits.all Char.isDigit = true ∧ n < 2 ^ 64 then some n else none

def sizeOf : Get → Option Nat
  | .found r => (r.contentRange.bind fun v => parseU64 (trim ((v.splitOn '/').getLastD []))).or r.contentLength
  | .empty => some 0
  | .missing => none

/-- `size`: an error is no size. -/
def size (key : List Char) : Work (Option Nat) := fun b =>
  match get send key (some "bytes=0-0".toList) b with
  | (.ok g, b') => (.ok (sizeOf g), b')
  | (.error _, b') => (.ok none, b')

/-- A line of a listing. -/
structure Listed where
  key : List Char
  size : Nat
  modified : List Char

def readEntries (xml : List Char) : List Listed :=
  ((Framing.split (opening "Contents".toList) xml).drop 1).filterMap fun part =>
    let c := (Framing.split (closing "Contents".toList) part).headD []
    (tag c "Key".toList).map fun k =>
      ⟨unescape k, ((tag c "Size".toList).bind fun v => parseU64 (trim v)).getD 0,
        (tag c "LastModified".toList).getD []⟩

def nextToken (xml : List Char) : Option (List Char) :=
  if tag xml "IsTruncated".toList = some "true".toList then
    (tag xml "NextContinuationToken".toList).map unescape
  else none

def listRequest (keyPrefix : List Char) (token : Option (List Char)) : Request where
  method := .get
  key := []
  query := [("list-type".toList, "2".toList), ("prefix".toList, keyPrefix)] ++
    token.toList.map fun t => ("continuation-token".toList, t)
  range := none
  body := none

/-- `list_keys`, from a token on: at most so many pages, `none` if there are more. -/
def listFrom (keyPrefix : List Char) : Nat → Option (List Char) → Work (Option (List Listed))
  | 0, _ => pure none
  | pages + 1, token => do
      match ← send (listRequest keyPrefix token) with
      | .found r =>
          match r.text with
          | .error e => throw e
          | .ok xml =>
              match nextToken xml with
              | none => pure (some (readEntries xml))
              | some t => return (← listFrom keyPrefix pages (some t)).map (readEntries xml ++ ·)
      | _ => throw "S3 listing refused".toList

end Client

/-! ## `backups.rs` -/

def archivePrefix (cfg : Config) : List Char := cfg.key ["backups".toList] ++ ['/']

def isArchiveName (name : List Char) : Bool := ".tar.gz".toList.isSuffixOf name

/-- The greatest name first. -/
def sortNames (names : List (List Char)) : List (List Char) := names.insertionSort fun a b => b ≤ a

def archives (send : Request → Work Get) (cfg : Config) (pages : Nat) : Work (Option (List (List Char))) := do
  let listed ← listFrom send (archivePrefix cfg) pages none
  return listed.map fun found => sortNames ((found.map Listed.key).filter isArchiveName)

structure Uploaded where
  key : List Char
  size : Nat
  kept : Nat
  purged : List (List Char)
deriving DecidableEq, Repr

/-- The loop over what is not kept, with the file names. -/
def purge (send : Request → Work Get) : List (List Char) → Work (List (List Char))
  | [] => pure []
  | old :: rest => do
      delete send old
      let purged ← purge send rest
      return (old.splitOn '/').getLastD [] :: purged

/-- What is left to do once the archive is stored. -/
def retain (send : Request → Work Get) (cfg : Config) (key : List Char) (sent : Nat) (keep : Int) (pages : Nat) :
    Work (Option Uploaded) := do
  match ← archives send cfg pages with
  | none => pure none
  | some listed =>
      let purged ← purge send (listed.drop keep.toNat)
      return some ⟨key, sent, min keep.toNat listed.length, purged⟩

/-- `upload`: `none` if the listing has more than `pages` pages. -/
def upload (send : Request → Work Get) (cfg : Option Config) (name : List Char) (keep : Int) (data : List UInt8)
    (pages : Nat) : Work (Option Uploaded) :=
  if isArchiveName name = false ∨ '/' ∈ name then throw ("unexpected archive name '".toList ++ name ++ ['\x27'])
  else
    match cfg with
    | none => throw "Stockage S3 non configuré (Admin → Config).".toList
    | some cfg => do
        let key := cfg.key ["backups".toList, name]
        put send key data "application/octet-stream".toList
        match ← size send key with
        | none => throw (key ++ " not found after upload".toList)
        | some n =>
            if n = 0 then throw (key ++ " not found after upload".toList)
            else if n ≠ data.length then
              throw (key ++ " has ".toList ++ Nat.toDigits 10 n ++ " bytes in the bucket, ".toList ++
                Nat.toDigits 10 data.length ++ " were sent".toList)
            else retain send cfg key data.length keep pages

/-! ## The server -/

/-- The names that the code searches a listing for. -/
def RESERVED : List (List Char) :=
  ["Contents".toList, "/Contents".toList, "Key".toList, "IsTruncated".toList, "NextContinuationToken".toList]

/-- An entry of a listing: its key as it is written, the other fields around it, and what follows
it in front of the next one. -/
structure Entry where
  key : List Char
  written : List Char
  gap : List Char
  before : List Chunk
  after : List Chunk
  behind : List Chunk
  key_written : Written key written
  gap_clean : '<' ∉ gap
  fields_clean : ∀ c ∈ before ++ after, c.Clean ∧ c.tag ∉ RESERVED
  behind_clean : ∀ c ∈ behind, c.Clean ∧ c.tag ≠ "Contents".toList

def Entry.start (e : Entry) : Chunk := ⟨"Contents".toList, e.gap⟩

def Entry.fields (e : Entry) : List Chunk :=
  e.before ++ ⟨"Key".toList, e.written⟩ :: ⟨"/Key".toList, e.gap⟩ :: e.after

def Entry.block (e : Entry) : List Chunk := e.fields ++ ⟨"/Contents".toList, e.gap⟩ :: e.behind

/-- The first element of a name has this text, or there is none of the name. -/
def Reads (cs : List Chunk) (name : List Char) : Option (List Char) → Prop
  | some text => ∃ before c d behind, cs = before ++ c :: d :: behind ∧ c.tag = name ∧ c.text = text ∧
      d.tag = '/' :: name ∧ ∀ b ∈ before, b.tag ≠ name
  | none => ∀ c ∈ cs, c.tag ≠ name

/-- A page of a listing: what stands in front of the entries, the entries, and where to go on. -/
structure Page where
  head : List Chunk
  entries : List Entry
  next : Option (List Char)
  head_clean : ∀ c ∈ head, c.Clean ∧ c.tag ≠ "Contents".toList
  truncated : Reads (head ++ entries.flatMap fun e => e.start :: e.block) "IsTruncated".toList
    (some (if next.isSome then "true".toList else "false".toList))
  token : ∀ t ∈ next, ∃ w, Written t w ∧
    Reads (head ++ entries.flatMap fun e => e.start :: e.block) "NextContinuationToken".toList (some w)

def Page.chunks (p : Page) : List Chunk := p.head ++ p.entries.flatMap fun e => e.start :: e.block

def Page.text (p : Page) : List Char := raw p.chunks

/-- What is found under a token is the page's text. -/
def SendsPage (send : Request → Work Get) (b : Bucket) (keyPrefix : List Char) (token : Option (List Char)) (p : Page) :
    Prop :=
  ∀ r xml, (send (listRequest keyPrefix token) b).1 = .ok (.found r) → r.text = .ok xml → xml = p.text

/-- The pages of a listing, from a token on. -/
inductive Serves (send : Request → Work Get) (b : Bucket) (keyPrefix : List Char) :
    Option (List Char) → List Page → Prop where
  | last {token : Option (List Char)} {p : Page} (hpage : SendsPage send b keyPrefix token p) (hnext : p.next = none) :
      Serves send b keyPrefix token [p]
  | more {token : Option (List Char)} {t : List Char} {p : Page} {pages : List Page}
      (hpage : SendsPage send b keyPrefix token p) (hnext : p.next = some t)
      (hrest : Serves send b keyPrefix (some t) pages) : Serves send b keyPrefix token (p :: pages)

/-- The server of the bucket. What it answers to a read does not change the bucket; a write that
is found has stored the object at the time of the upload, a deletion without an error has erased
it, and a listing has the keys with the prefix, on pages of any size. -/
structure Server where
  now : Nat
  send : Request → Work Get
  get_keeps : ∀ q b, q.method = .get → (send q b).2 = b
  put_stores : ∀ key data contentType r b b',
    send ⟨.put, key, [], none, some (data, contentType)⟩ b = (.ok (.found r), b') → b' = b.insert key ⟨data, now⟩
  delete_erases : ∀ key g b b', send ⟨.delete, key, [], none, none⟩ b = (.ok g, b') → b' = b.erase key
  lists : ∀ b keyPrefix, ∃ pages, Serves send b keyPrefix none pages ∧
    (pages.flatMap fun p => p.entries.map Entry.key).Perm (b.keys.filter fun k => keyPrefix.isPrefixOf k)

/-! ## A page, read -/

section Read

variable {cs : List Chunk} {name : List Char}

theorem tag_reads {r : Option (List Char)} (h : Reads cs name r) (hcs : ∀ c ∈ cs, c.Clean) (hname : '>' ∉ name) :
    tag (raw cs) name = r := by
  cases r with
  | none => exact @tag_raw_eq_none name [] cs List.not_mem_nil hcs hname h
  | some text =>
    rcases h with ⟨before, c, d, behind, rfl, hc, rfl, hd, hbefore⟩
    rw [List.forall_mem_append, List.forall_mem_cons] at hcs
    exact @tag_raw name [] c d before behind List.not_mem_nil hcs.1 hname hbefore hc hcs.2.1 hd

variable (e : Entry) (p : Page)

/-- The tags of an entry hold no sign of markup, and are told apart. -/
theorem tag_facts : ('<' ∉ "Key".toList ∧ '>' ∉ "Key".toList) ∧ ('<' ∉ "/Key".toList ∧ '>' ∉ "/Key".toList) ∧
    ('<' ∉ "Contents".toList ∧ '>' ∉ "Contents".toList) ∧ ('<' ∉ "/Contents".toList ∧ '>' ∉ "/Contents".toList) ∧
    "Key".toList ≠ "Contents".toList ∧ "Key".toList ≠ "/Contents".toList ∧ "/Key".toList ≠ "Contents".toList ∧
    "/Key".toList ≠ "/Contents".toList ∧ "/Contents".toList ≠ "Contents".toList := by
  decide

theorem clean_of {name text : List Char} (hname : '<' ∉ name ∧ '>' ∉ name) (htext : '<' ∉ text) :
    (⟨name, text⟩ : Chunk).Clean :=
  ⟨hname.1, hname.2, htext⟩

theorem written_clean : (⟨"Key".toList, e.written⟩ : Chunk).Clean :=
  clean_of tag_facts.1 (not_mem_written e.key_written)

theorem start_clean : e.start.Clean := clean_of tag_facts.2.2.1 e.gap_clean

theorem fields_clean : ∀ c ∈ e.fields, c.Clean ∧ c.tag ≠ "Contents".toList ∧ c.tag ≠ "/Contents".toList := by
  have hother : ∀ c ∈ e.before ++ e.after, c.Clean ∧ c.tag ≠ "Contents".toList ∧ c.tag ≠ "/Contents".toList := by
    intro c hc
    rcases e.fields_clean c hc with ⟨hclean, hreserved⟩
    refine ⟨hclean, ?_, ?_⟩
    · intro htag
      exact hreserved (by rw [htag]; decide)
    · intro htag
      exact hreserved (by rw [htag]; decide)
  intro c hc
  rcases List.mem_append.1 hc with hc | hc
  · exact hother c (List.mem_append_left _ hc)
  · rcases List.mem_cons.1 hc with rfl | hc
    · exact ⟨written_clean e, tag_facts.2.2.2.2.1, tag_facts.2.2.2.2.2.1⟩
    · rcases List.mem_cons.1 hc with rfl | hc
      · exact ⟨clean_of tag_facts.2.1 e.gap_clean, tag_facts.2.2.2.2.2.2.1, tag_facts.2.2.2.2.2.2.2.1⟩
      · exact hother c (List.mem_append_right _ hc)

theorem block_clean : ∀ c ∈ e.block, c.Clean ∧ c.tag ≠ "Contents".toList := by
  intro c hc
  rcases List.mem_append.1 hc with hc | hc
  · rcases fields_clean e c hc with ⟨hclean, hopen, -⟩
    exact ⟨hclean, hopen⟩
  · rcases List.mem_cons.1 hc with rfl | hc
    · exact ⟨clean_of tag_facts.2.2.2.1 e.gap_clean, tag_facts.2.2.2.2.2.2.2.2⟩
    · exact e.behind_clean c hc

theorem chunks_clean : ∀ c ∈ p.chunks, c.Clean := by
  intro c hc
  rcases List.mem_append.1 hc with hc | hc
  · exact (p.head_clean c hc).1
  · rcases List.mem_flatMap.1 hc with ⟨e, -, he⟩
    rcases List.mem_cons.1 he with rfl | he
    · exact start_clean e
    · exact (block_clean e c he).1

theorem key_read : tag (e.gap ++ raw e.fields) "Key".toList = some e.written := by
  refine @tag_raw "Key".toList e.gap _ _ e.before e.after e.gap_clean ?_ (by decide) ?_ rfl (written_clean e) rfl
  · intro c hc
    exact (e.fields_clean c (List.mem_append_left _ hc)).1
  · intro c hc htag
    exact (e.fields_clean c (List.mem_append_left _ hc)).2 (by rw [htag]; decide)

theorem head_block :
    (Framing.split (closing "Contents".toList) (e.gap ++ raw e.block)).headD [] = e.gap ++ raw e.fields :=
  @head_split ('/' :: "Contents".toList) e.gap ⟨"/Contents".toList, e.gap⟩ e.fields e.behind e.gap_clean
    (fun c hc => (fields_clean e c hc).1) (by decide) (fun c hc => (fields_clean e c hc).2.2) rfl

theorem readEntries_page : (readEntries p.text).map Listed.key = p.entries.map Entry.key := by
  have hsplit := @split_raw "Contents".toList [] (by decide) p.head (p.entries.map fun e => (e.start, e.block))
    List.not_mem_nil p.head_clean (by
      intro b hb
      rcases List.mem_map.1 hb with ⟨e, -, rfl⟩
      exact ⟨rfl, start_clean e, block_clean e⟩)
  rw [List.flatMap_map, List.nil_append, List.nil_append, List.map_map] at hsplit
  rw [readEntries, Page.text, Page.chunks, hsplit, List.drop_one, List.tail_cons]
  clear hsplit
  induction p.entries with
  | nil => rfl
  | cons e es ih =>
    rw [List.map_cons, List.filterMap_cons]
    have hhead : (Framing.split (closing "Contents".toList) (e.start.text ++ raw e.block)).headD [] =
        e.gap ++ raw e.fields := head_block e
    simp only [Function.comp_apply, hhead, key_read, Option.map_some]
    rw [List.map_cons, ih, unescape_written e.key_written, List.map_cons]

theorem nextToken_page : nextToken p.text = p.next := by
  have htruncated := tag_reads p.truncated (chunks_clean p) (by decide)
  rw [nextToken, Page.text, Page.chunks, htruncated]
  cases hnext : p.next with
  | none =>
    exact if_neg (by decide)
  | some t =>
    rcases p.token t hnext with ⟨w, hw, hreads⟩
    have htrue : some (if (some t).isSome = true then "true".toList else "false".toList) = some "true".toList := rfl
    rw [if_pos htrue, tag_reads hreads (chunks_clean p) (by decide), Option.map_some, unescape_written hw]

end Read

/-! ## Work without an error -/

section Work

variable {α β : Type} {b b' : Bucket}

theorem bind_eq (x : Work α) (f : α → Work β) (b : Bucket) :
    (x >>= f) b = match x b with
      | (.ok a, b₁) => f a b₁
      | (.error e, b₁) => (.error e, b₁) := by
  rcases hx : x b with ⟨r, b₁⟩
  cases r with
  | ok a => simp [bind, ExceptT.bind, ExceptT.bindCont, ExceptT.mk, StateT.bind, hx]
  | error e =>
    simp [bind, ExceptT.bind, ExceptT.bindCont, ExceptT.mk, StateT.bind, hx]
    rfl

theorem bind_ok {x : Work α} {f : α → Work β} {r : β} (h : (x >>= f) b = (.ok r, b')) :
    ∃ a b₁, x b = (.ok a, b₁) ∧ f a b₁ = (.ok r, b') := by
  rw [bind_eq] at h
  rcases hx : x b with ⟨a, b₁⟩
  rw [hx] at h
  cases a with
  | ok a => exact ⟨a, b₁, rfl, h⟩
  | error e => cases h

theorem pure_ok {a r : α} (h : (pure a : Work α) b = (.ok r, b')) : r = a ∧ b' = b := by
  have hpure : (pure a : Work α) b = (.ok a, b) := rfl
  rw [hpure] at h
  cases h
  exact ⟨rfl, rfl⟩

theorem throw_ok {e : List Char} {r : α} (h : (throw e : Work α) b = (.ok r, b')) : False := by
  have hthrow : (throw e : Work α) b = (.error e, b) := rfl
  rw [hthrow] at h
  cases h

end Work

section Steps

variable (S : Server) {b b' : Bucket}

theorem put_ok {key : List Char} {data : List UInt8} {contentType : List Char}
    (h : put S.send key data contentType b = (.ok (), b')) : b' = b.insert key ⟨data, S.now⟩ := by
  unfold put at h
  rcases bind_ok h with ⟨g, b₁, hsend, h⟩
  cases g with
  | found r =>
    rw [(pure_ok h).2]
    exact S.put_stores key data contentType r b b₁ hsend
  | missing => exact absurd h throw_ok
  | empty => exact absurd h throw_ok

theorem size_keeps {key : List Char} {n : Option Nat} (h : size S.send key b = (.ok n, b')) : b' = b := by
  have hkeeps : (get S.send key (some "bytes=0-0".toList) b).2 = b := S.get_keeps _ b rfl
  unfold size at h
  rcases hget : get S.send key (some "bytes=0-0".toList) b with ⟨r, b₁⟩
  rw [hget] at h hkeeps
  cases r with
  | ok g =>
    cases h
    exact hkeeps
  | error e =>
    cases h
    exact hkeeps

theorem purge_ok {keys : List (List Char)} {purged : List (List Char)} (h : purge S.send keys b = (.ok purged, b')) :
    b' = keys.foldl (fun b k => b.erase k) b := by
  induction keys generalizing b b' purged with
  | nil => exact (pure_ok h).2
  | cons key keys ih =>
    rcases bind_ok h with ⟨_, b₁, hdelete, h⟩
    rcases bind_ok h with ⟨rest, b₂, hrest, h⟩
    rcases bind_ok hdelete with ⟨g, b₃, hsend, hdone⟩
    have hdone' := (pure_ok hdone).2
    subst hdone'
    rw [(pure_ok h).2, List.foldl_cons, ← S.delete_erases key g b b₁ hsend]
    exact ih hrest

variable {keyPrefix : List Char}

theorem listFrom_step {token : Option (List Char)} {p : Page} (hpage : SendsPage S.send b keyPrefix token p) {n : Nat}
    {found : Option (List Listed)} (h : listFrom S.send keyPrefix (n + 1) token b = (.ok found, b')) :
    p.next = none ∧ b' = b ∧ found = some (readEntries p.text) ∨
      ∃ t more, p.next = some t ∧ listFrom S.send keyPrefix n (some t) b = (.ok more, b') ∧
        found = more.map (readEntries p.text ++ ·) := by
  rcases bind_ok h with ⟨g, b₁, hsend, h⟩
  have hb : b₁ = b := by
    rw [← S.get_keeps (listRequest keyPrefix token) b rfl, hsend]
  subst hb
  cases g with
  | missing => exact absurd h throw_ok
  | empty => exact absurd h throw_ok
  | found r =>
    dsimp only at h
    cases htext : r.text with
    | error e =>
      rw [htext] at h
      exact absurd h throw_ok
    | ok xml =>
      rw [htext] at h
      have hxml := hpage r xml (by rw [hsend]) htext
      subst hxml
      dsimp only at h
      rw [nextToken_page] at h
      cases hnext : p.next with
      | none =>
        rw [hnext] at h
        rcases pure_ok h with ⟨hfound, hb⟩
        exact Or.inl ⟨rfl, hb, hfound⟩
      | some t =>
        rw [hnext] at h
        rcases bind_ok h with ⟨more, b₂, hmore, h⟩
        rcases pure_ok h with ⟨hfound, hb⟩
        rw [hb]
        exact Or.inr ⟨t, more, rfl, hmore, hfound⟩

/-- The listing has the keys of its pages, and needs no more steps than there are pages. -/
theorem listFrom_ok {token : Option (List Char)} {pages : List Page} (hserves : Serves S.send b keyPrefix token pages)
    {n : Nat} {found : Option (List Listed)} (h : listFrom S.send keyPrefix n token b = (.ok found, b')) :
    b' = b ∧ (∀ ls ∈ found, ls.map Listed.key = pages.flatMap fun p => p.entries.map Entry.key) ∧
      (pages.length ≤ n → found ≠ none) := by
  induction hserves generalizing n found b' with
  | @last token p hpage hnext =>
    cases n with
    | zero =>
      rcases pure_ok h with ⟨rfl, hb⟩
      exact ⟨hb, fun ls hls => absurd hls (Option.not_mem_none ls), fun hle => absurd hle (by simp)⟩
    | succ n =>
      rcases listFrom_step S hpage h with ⟨-, hb, rfl⟩ | ⟨t, more, hmore, -, -⟩
      · refine ⟨hb, fun ls hls => ?_, fun _ => Option.some_ne_none _⟩
        rcases Option.some.inj hls with rfl
        rw [readEntries_page]
        simp
      · rw [hnext] at hmore
        cases hmore
  | @more token t p pages hpage hnext hrest ih =>
    cases n with
    | zero =>
      rcases pure_ok h with ⟨rfl, hb⟩
      exact ⟨hb, fun ls hls => absurd hls (Option.not_mem_none ls), fun hle => absurd hle (by simp)⟩
    | succ n =>
      rcases listFrom_step S hpage h with ⟨hlast, -, -⟩ | ⟨t', more, hmore, hlisted, rfl⟩
      · rw [hnext] at hlast
        cases hlast
      · rw [hnext] at hmore
        rcases Option.some.inj hmore with rfl
        rcases ih hlisted with ⟨hb, hkeys, hreturns⟩
        refine ⟨hb, fun ls hls => ?_, fun hle => ?_⟩
        · rcases Option.map_eq_some_iff.1 hls with ⟨rest, hrest, rfl⟩
          rw [List.map_append, readEntries_page, hkeys rest hrest]
          rfl
        · rw [Ne, Option.map_eq_none_iff]
          exact hreturns (Nat.le_of_succ_le_succ hle)

end Steps

/-! ## What remains -/

/-- The keys of the archives. -/
def isArchive (cfg : Config) (key : List Char) : Bool := (archivePrefix cfg).isPrefixOf key && isArchiveName key

def archiveKeys (cfg : Config) (b : Bucket) : List (List Char) := b.keys.filter (isArchive cfg)

/-- How many archives have a greater name. -/
def rank (cfg : Config) (b : Bucket) (key : List Char) : Nat :=
  ((archiveKeys cfg b).filter fun k => key < k).length

/-- The archive that was sent is there as it was sent, each one that was removed is older than each
that remains, as many remain as should, and no other key has changed. -/
def KeepsNewest (cfg : Config) (key : List Char) (data : List UInt8) (now keep : Nat) (b b' : Bucket) : Prop :=
  b'.lookup key = some ⟨data, now⟩ ∧
    (∀ old o new n, isArchive cfg old = true → isArchive cfg new = true →
      (b.insert key ⟨data, now⟩).lookup old = some o → b'.lookup old = none → b'.lookup new = some n →
      o.time < n.time) ∧
    (archiveKeys cfg b').length = min keep (archiveKeys cfg (b.insert key ⟨data, now⟩)).length ∧
    ∀ k, (archivePrefix cfg).isPrefixOf k = false → b'.lookup k = b.lookup k

/-- At the cut, the names are in the order of the upload times: an archive with at least `keep`
greater names is older than each that has fewer. -/
def NamesByAge (cfg : Config) (keep : Nat) (b : Bucket) : Prop :=
  ∀ old o new n, isArchive cfg old = true → isArchive cfg new = true → b.lookup old = some o →
    b.lookup new = some n → keep ≤ rank cfg b old → rank cfg b new < keep → o.time < n.time

section Rank

variable {L : List (List Char)} {k : List Char} {n : Nat}

/-- In a list by falling names, the first ones are those with few greater names. -/
theorem mem_take_iff (hL : L.Pairwise (· > ·)) : k ∈ L.take n ↔ k ∈ L ∧ (L.filter fun l => k < l).length < n := by
  constructor
  · intro h
    have hmem := List.mem_of_mem_take h
    refine ⟨hmem, ?_⟩
    rcases List.append_of_mem hmem with ⟨front, rest, rfl⟩
    rw [List.pairwise_append, List.pairwise_cons] at hL
    -- the greater ones are those in front
    have hfront : (front ++ k :: rest).filter (fun l => k < l) = front := by
      rw [List.filter_append, List.filter_cons_of_neg (by simp), List.filter_eq_self.2, List.filter_eq_nil_iff.2,
        List.append_nil]
      · intro l hl
        simpa using le_of_lt (hL.2.1.1 l hl)
      · intro l hl
        simpa using hL.2.2 l hl k List.mem_cons_self
    rw [hfront]
    by_contra hle
    rw [List.take_append_of_le_length (Nat.le_of_not_lt hle)] at h
    exact lt_irrefl k (hL.2.2 k (List.mem_of_mem_take h) k List.mem_cons_self)
  · rintro ⟨hmem, hlt⟩
    rcases List.append_of_mem hmem with ⟨front, rest, rfl⟩
    rw [List.pairwise_append] at hL
    have hfront : front.length ≤ ((front ++ k :: rest).filter fun l => k < l).length := by
      rw [List.filter_append, List.filter_eq_self.2, List.length_append]
      · omega
      · intro l hl
        simpa using hL.2.2 l hl k List.mem_cons_self
    rw [List.take_append, List.mem_append]
    right
    rw [show n - front.length = (n - front.length - 1) + 1 by omega, List.take_succ_cons]
    exact List.mem_cons_self

end Rank

section Erased

variable {b : Bucket} {keys : List (List Char)} {k : List Char}

theorem lookup_erased : (keys.foldl (fun b k => b.erase k) b).lookup k = if k ∈ keys then none else b.lookup k := by
  induction keys generalizing b with
  | nil => rfl
  | cons key keys ih =>
    rw [List.foldl_cons, ih]
    by_cases hk : k ∈ keys
    · rw [if_pos hk, if_pos (List.mem_cons_of_mem _ hk)]
    · rw [if_neg hk]
      by_cases heq : k = key
      · subst heq
        rw [if_pos List.mem_cons_self, AList.lookup_erase]
      · rw [if_neg (by rw [List.mem_cons, not_or]; exact ⟨heq, hk⟩), AList.lookup_erase_ne heq]

theorem mem_keys_iff : k ∈ b.keys ↔ b.lookup k ≠ none := by
  rw [← AList.mem_keys, ← AList.lookup_isSome, Option.isSome_iff_ne_none]

end Erased

section Retained

variable {cfg : Config} {b : Bucket} {keep : Nat}

/-- The bucket without the archives behind the first `keep`. -/
def retained (cfg : Config) (keep : Nat) (b : Bucket) : Bucket :=
  ((sortNames (archiveKeys cfg b)).drop keep).foldl (fun b k => b.erase k) b

theorem archiveKeys_nodup (cfg : Config) (b : Bucket) : (archiveKeys cfg b).Nodup := b.keys_nodup.filter _

theorem mem_archiveKeys {k : List Char} : k ∈ archiveKeys cfg b ↔ b.lookup k ≠ none ∧ isArchive cfg k = true := by
  rw [archiveKeys, List.mem_filter, mem_keys_iff]

theorem sortNames_perm (names : List (List Char)) : (sortNames names).Perm names := List.perm_insertionSort _ _

theorem sortNames_pairwise {names : List (List Char)} (h : names.Nodup) : (sortNames names).Pairwise (· > ·) := by
  have hle : (sortNames names).Pairwise fun a b => b ≤ a := List.pairwise_insertionSort _ _
  have hne : (sortNames names).Pairwise (· ≠ ·) := (sortNames_perm names).nodup_iff.2 h
  exact (hle.and hne).imp fun h => lt_of_le_of_ne h.1 (Ne.symm h.2)

theorem mem_dropped {k : List Char} : k ∈ (sortNames (archiveKeys cfg b)).drop keep ↔
    (b.lookup k ≠ none ∧ isArchive cfg k = true) ∧ keep ≤ rank cfg b k := by
  have hsorted := sortNames_pairwise (archiveKeys_nodup cfg b)
  have hperm := sortNames_perm (archiveKeys cfg b)
  have hrank : ((sortNames (archiveKeys cfg b)).filter fun l => k < l).length = rank cfg b k :=
    (hperm.filter _).length_eq
  have htake := @mem_take_iff _ k keep hsorted
  rw [hrank, hperm.mem_iff, mem_archiveKeys] at htake
  have hnodup := hperm.nodup_iff.2 (archiveKeys_nodup cfg b)
  have hapart := List.disjoint_take_drop hnodup (Nat.le_refl keep)
  constructor
  · intro h
    have hmem := mem_archiveKeys.1 (hperm.mem_iff.1 (List.mem_of_mem_drop h))
    refine ⟨hmem, ?_⟩
    by_contra hlt
    exact hapart (htake.2 ⟨hmem, Nat.lt_of_not_le hlt⟩) h
  · rintro ⟨hmem, hle⟩
    have hin := hperm.mem_iff.2 (mem_archiveKeys.2 hmem)
    rw [← List.take_append_drop keep (sortNames (archiveKeys cfg b)), List.mem_append] at hin
    rcases hin with hin | hin
    · exact absurd (htake.1 hin).2 (Nat.not_lt.2 hle)
    · exact hin

theorem lookup_retained {k : List Char} : (retained cfg keep b).lookup k =
    if isArchive cfg k = true ∧ keep ≤ rank cfg b k then none else b.lookup k := by
  rw [retained, lookup_erased]
  by_cases hnone : b.lookup k = none
  · rw [hnone, ite_self, ite_self]
  · have hiff : k ∈ (sortNames (archiveKeys cfg b)).drop keep ↔ isArchive cfg k = true ∧ keep ≤ rank cfg b k := by
      rw [mem_dropped, and_assoc]
      exact and_iff_right hnone
    by_cases hk : k ∈ (sortNames (archiveKeys cfg b)).drop keep
    · rw [if_pos hk, if_pos (hiff.1 hk)]
    · rw [if_neg hk, if_neg fun h => hk (hiff.2 h)]

theorem length_retained : (archiveKeys cfg (retained cfg keep b)).length = min keep (archiveKeys cfg b).length := by
  have hsorted := sortNames_pairwise (archiveKeys_nodup cfg b)
  have hperm := sortNames_perm (archiveKeys cfg b)
  have hnodup := hperm.nodup_iff.2 (archiveKeys_nodup cfg b)
  have hremain : (archiveKeys cfg (retained cfg keep b)).Perm ((sortNames (archiveKeys cfg b)).take keep) := by
    refine (List.perm_ext_iff_of_nodup (archiveKeys_nodup _ _) (hnodup.sublist (List.take_sublist _ _))).2 fun k => ?_
    rw [mem_take_iff hsorted, hperm.mem_iff, (hperm.filter _).length_eq, mem_archiveKeys, mem_archiveKeys,
      lookup_retained]
    by_cases hcut : isArchive cfg k = true ∧ keep ≤ rank cfg b k
    · rw [if_pos hcut]
      exact ⟨fun h => absurd rfl h.1, fun h => absurd h.2 (Nat.not_lt.2 hcut.2)⟩
    · rw [if_neg hcut]
      constructor
      · intro h
        exact ⟨h, Nat.lt_of_not_le fun hle => hcut ⟨h.2, hle⟩⟩
      · intro h
        exact h.1
  rw [hremain.length_eq, List.length_take, hperm.length_eq]

theorem exists_rank_zero (h : archiveKeys cfg b ≠ []) : ∃ k ∈ archiveKeys cfg b, rank cfg b k = 0 := by
  have hperm := sortNames_perm (archiveKeys cfg b)
  have hsorted := sortNames_pairwise (archiveKeys_nodup cfg b)
  have hne : sortNames (archiveKeys cfg b) ≠ [] := fun hnil => h (List.nil_perm.1 (hnil ▸ hperm))
  rcases List.exists_cons_of_ne_nil hne with ⟨k, rest, hk⟩
  have htake : k ∈ (sortNames (archiveKeys cfg b)).take 1 := by
    rw [hk]
    exact List.mem_cons_self
  rw [mem_take_iff hsorted, hperm.mem_iff, (hperm.filter _).length_eq] at htake
  exact ⟨k, htake.1, Nat.lt_one_iff.1 htake.2⟩

/-- The newest archives remain exactly if the names go by age at the cut. -/
theorem keepsNewest_retained {key : List Char} {data : List UInt8} {now : Nat} (hkeep : 1 ≤ keep)
    (hkey : isArchive cfg key = true) (hclock : ∀ k o, b.lookup k = some o → o.time < now) :
    KeepsNewest cfg key data now keep b (retained cfg keep (b.insert key ⟨data, now⟩)) ↔
      NamesByAge cfg keep (b.insert key ⟨data, now⟩) := by
  have hsent : (b.insert key ⟨data, now⟩).lookup key = some ⟨data, now⟩ := AList.lookup_insert b
  constructor
  · rintro ⟨-, hages, -, -⟩ old o new n hold hnew holdin hnewin hcut hin
    refine hages old o new n hold hnew holdin ?_ ?_
    · rw [lookup_retained, if_pos ⟨hold, hcut⟩]
    · rw [lookup_retained, if_neg fun h => absurd h.2 (Nat.not_le.2 hin)]
      exact hnewin
  · intro hbyAge
    have hfresh : rank cfg (b.insert key ⟨data, now⟩) key < keep := by
      by_contra hge
      have hne : archiveKeys cfg (b.insert key ⟨data, now⟩) ≠ [] := by
        refine List.ne_nil_of_mem (mem_archiveKeys.2 ⟨?_, hkey⟩)
        rw [hsent]
        exact Option.some_ne_none _
      -- the archive with the greatest name would be newer than the one just sent
      rcases exists_rank_zero hne with ⟨k, hk, hzero⟩
      rcases mem_archiveKeys.1 hk with ⟨hin, harchive⟩
      rcases Option.ne_none_iff_exists'.1 hin with ⟨n, hn⟩
      have hlt := hbyAge key ⟨data, now⟩ k n hkey harchive hsent hn (Nat.le_of_not_lt hge) (by omega)
      have hother : k ≠ key := by
        rintro rfl
        omega
      rw [AList.lookup_insert_ne hother] at hn
      exact absurd hlt (Nat.lt_asymm (hclock k n hn))
    refine ⟨?_, ?_, length_retained, ?_⟩
    · rw [lookup_retained, if_neg fun h => absurd h.2 (Nat.not_le.2 hfresh)]
      exact hsent
    · intro old o new n hold hnew holdin hgone hnewin
      rw [lookup_retained] at hgone hnewin
      split_ifs at hgone with hcut
      · split_ifs at hnewin with hnewcut
        exact hbyAge old o new n hold hnew holdin hnewin hcut.2 (Nat.lt_of_not_le fun hle => hnewcut ⟨hnew, hle⟩)
      · rw [hgone] at holdin
        cases holdin
    · intro k hk
      have hno : isArchive cfg k = false := by
        rw [isArchive, hk]
        rfl
      have hne : k ≠ key := by
        rintro rfl
        rw [hkey] at hno
        cases hno
      rw [lookup_retained, if_neg (by rw [hno]; exact fun h => Bool.false_ne_true h.1), AList.lookup_insert_ne hne]

end Retained

/-! ## `upload` -/

theorem archive_key (cfg : Config) {name : List Char} (hname : isArchiveName name = true) (hslash : '/' ∉ name) :
    cfg.key ["backups".toList, name] = archivePrefix cfg ++ name := by
  have htrim : S3Request.trimSlashes name = name := by
    refine trimMatches_of_forall fun c hc => ?_
    rw [beq_eq_false_iff_ne]
    rintro rfl
    exact hslash hc
  have hne : name ≠ [] := by
    rintro rfl
    exact absurd hname (by decide)
  have hbackups : S3Request.trimSlashes "backups".toList = "backups".toList := by decide
  have hfront : (((cfg.keyPrefix :: ["backups".toList]).map S3Request.trimSlashes).filter fun p => p ≠ []) ≠ [] := by
    refine List.ne_nil_of_mem (a := "backups".toList) (List.mem_filter.2 ⟨?_, by decide⟩)
    rw [List.map_cons, List.map_singleton, hbackups]
    exact List.mem_cons_of_mem _ (List.mem_singleton_self _)
  have hsplit : cfg.keyPrefix :: ["backups".toList, name] = cfg.keyPrefix :: ["backups".toList] ++ [name] := rfl
  rw [archivePrefix, Config.key, Config.key, hsplit, List.map_append, List.filter_append, List.map_singleton, htrim,
    List.filter_cons_of_pos (by simpa using hne), List.filter_nil, intercalate_concat hfront, List.append_assoc]

theorem isArchive_key (cfg : Config) {name : List Char} (hname : isArchiveName name = true) (hslash : '/' ∉ name) :
    isArchive cfg (cfg.key ["backups".toList, name]) = true := by
  rw [archive_key cfg hname hslash, isArchive, Bool.and_eq_true]
  constructor
  · exact List.isPrefixOf_iff_prefix.2 (List.prefix_append _ _)
  · exact List.isSuffixOf_iff_suffix.2 ((List.isSuffixOf_iff_suffix.1 hname).trans (List.suffix_append _ _))

section Upload

variable (S : Server) {cfg : Config} {b b' : Bucket} {pages : Nat}

theorem archives_ok {listed : Option (List (List Char))} (h : archives S.send cfg pages b = (.ok listed, b')) :
    b' = b ∧ (∀ ks ∈ listed, ks = sortNames (archiveKeys cfg b)) := by
  rcases bind_ok h with ⟨found, b₁, hlist, h⟩
  rcases pure_ok h with ⟨rfl, rfl⟩
  rcases S.lists b (archivePrefix cfg) with ⟨ps, hserves, hperm⟩
  rcases listFrom_ok S hserves hlist with ⟨hb, hkeys, -⟩
  subst hb
  refine ⟨rfl, fun ks hks => ?_⟩
  rcases Option.map_eq_some_iff.1 hks with ⟨lines, hlines, rfl⟩
  rw [hkeys lines hlines]
  -- the same names, by falling name
  have hnames : ((ps.flatMap fun p => p.entries.map Entry.key).filter isArchiveName).Perm (archiveKeys cfg b') := by
    refine (hperm.filter _).trans ?_
    rw [List.filter_filter, archiveKeys]
    refine List.Perm.of_eq (List.filter_congr fun k _ => ?_)
    rw [isArchive, Bool.and_comm]
  have hnodup := archiveKeys_nodup cfg b'
  refine @List.Perm.eq_of_pairwise _ (· > ·) _ _ (fun k l _ _ hkl hlk => absurd hkl (lt_asymm hlk))
    (sortNames_pairwise (hnames.nodup_iff.2 hnodup)) (sortNames_pairwise hnodup) ?_
  exact (sortNames_perm _).trans (hnames.trans (sortNames_perm _).symm)

variable {c : Option Config} {name : List Char} {keep : Int} {data : List UInt8}

/-- An upload without an error has stored the archive, and goes on from there. -/
theorem upload_step {out : Option Uploaded} (h : upload S.send c name keep data pages b = (.ok out, b')) :
    isArchiveName name = true ∧ '/' ∉ name ∧ ∃ cfg, c = some cfg ∧
      retain S.send cfg (cfg.key ["backups".toList, name]) data.length keep pages
        (b.insert (cfg.key ["backups".toList, name]) ⟨data, S.now⟩) = (.ok out, b') := by
  unfold upload at h
  by_cases hname : isArchiveName name = false ∨ '/' ∈ name
  · rw [if_pos hname] at h
    exact absurd h throw_ok
  · rw [if_neg hname] at h
    rw [not_or, Bool.not_eq_false] at hname
    refine ⟨hname.1, hname.2, ?_⟩
    cases c with
    | none => exact absurd h throw_ok
    | some cfg =>
      refine ⟨cfg, rfl, ?_⟩
      rcases bind_ok h with ⟨_, b₁, hput, h⟩
      rcases bind_ok h with ⟨n, b₂, hsize, h⟩
      rw [← put_ok S hput, ← size_keeps S hsize]
      cases n with
      | none => exact absurd h throw_ok
      | some n =>
        dsimp only at h
        split_ifs at h
        · exact absurd h throw_ok
        · exact absurd h throw_ok
        · exact h

theorem upload_ok {out : Uploaded} (h : upload S.send c name keep data pages b = (.ok (some out), b')) :
    isArchiveName name = true ∧ '/' ∉ name ∧ ∃ cfg, c = some cfg ∧
      b' = retained cfg keep.toNat (b.insert (cfg.key ["backups".toList, name]) ⟨data, S.now⟩) := by
  rcases upload_step S h with ⟨hname, hslash, cfg, hcfg, h⟩
  refine ⟨hname, hslash, cfg, hcfg, ?_⟩
  rcases bind_ok h with ⟨listed, b₁, hlist, h⟩
  rcases archives_ok S hlist with ⟨rfl, hkeys⟩
  cases listed with
  | none => cases (pure_ok h).1
  | some listed =>
    rcases bind_ok h with ⟨purged, b₂, hpurge, h⟩
    rw [(pure_ok h).2, purge_ok S hpurge, hkeys listed rfl]
    rfl

/-- After an upload without an error, the newest archives remain exactly if the names of the
archives are in the order of their upload times at the cut. -/
theorem keepsNewest_iff {out : Uploaded} (hkeep : 1 ≤ keep) (hclock : ∀ k o, b.lookup k = some o → o.time < S.now)
    (h : upload S.send c name keep data pages b = (.ok (some out), b')) :
    ∃ cfg, c = some cfg ∧
      (KeepsNewest cfg (cfg.key ["backups".toList, name]) data S.now keep.toNat b b' ↔
        NamesByAge cfg keep.toNat (b.insert (cfg.key ["backups".toList, name]) ⟨data, S.now⟩)) := by
  rcases upload_ok S h with ⟨hname, hslash, cfg, rfl, rfl⟩
  exact ⟨cfg, rfl, keepsNewest_retained (by omega) (isArchive_key cfg hname hslash) hclock⟩

/-- With pages enough, an upload comes to its end. -/
theorem upload_returns (c : Option Config) (name : List Char) (keep : Int) (data : List UInt8) (b : Bucket) :
    ∃ n, ∀ pages ≥ n, (upload S.send c name keep data pages b).1 ≠ .ok none := by
  cases c with
  | none =>
    refine ⟨0, fun pages _ h => ?_⟩
    rcases upload_step S (Prod.ext h rfl) with ⟨-, -, cfg, hcfg, -⟩
    cases hcfg
  | some cfg =>
    rcases S.lists (b.insert (cfg.key ["backups".toList, name]) ⟨data, S.now⟩) (archivePrefix cfg) with
      ⟨ps, hserves, -⟩
    refine ⟨ps.length, fun pages hpages h => ?_⟩
    rcases upload_step S (Prod.ext h rfl) with ⟨-, -, cfg', hcfg, h⟩
    rcases Option.some.inj hcfg with rfl
    rcases bind_ok h with ⟨listed, b₁, hlist, h⟩
    cases listed with
    | some listed =>
      rcases bind_ok h with ⟨purged, b₂, -, h⟩
      cases (pure_ok h).1
    | none =>
      rcases bind_ok hlist with ⟨found, b₂, hfrom, hlist⟩
      have hfound := Option.map_eq_none_iff.1 (pure_ok hlist).1.symm
      exact (listFrom_ok S hserves hfrom).2.2 hpages hfound

end Upload

/-! ## Two uploads -/

/-- An entry of a server that writes the key only. -/
def sampleEntry (key : List Char) (behind : List Chunk)
    (h : ∀ c ∈ behind, c.Clean ∧ c.tag ≠ "Contents".toList) : Entry where
  key := key
  written := escape key
  gap := []
  before := []
  after := []
  behind := behind
  key_written := written_escape key
  gap_clean := List.not_mem_nil
  fields_clean := List.forall_mem_nil _
  behind_clean := h

def rootEnd : List Chunk := [⟨"/ListBucketResult".toList, []⟩]

theorem rootEnd_clean : ∀ c ∈ rootEnd, c.Clean ∧ c.tag ≠ "Contents".toList := by
  intro c hc
  rw [List.mem_singleton.1 hc]
  exact ⟨⟨by decide, by decide, by decide⟩, by decide⟩

/-- The entries; the listing ends behind the last one. -/
def sampleEntries : List (List Char) → List Entry
  | [] => []
  | [key] => [sampleEntry key rootEnd rootEnd_clean]
  | key :: keys => sampleEntry key [] (List.forall_mem_nil _) :: sampleEntries keys

def rootStart : List Chunk :=
  [⟨"?xml version=\"1.0\" encoding=\"UTF-8\"?".toList, []⟩, ⟨"ListBucketResult".toList, []⟩,
    ⟨"IsTruncated".toList, "false".toList⟩, ⟨"/IsTruncated".toList, []⟩]

theorem rootStart_clean : ∀ c ∈ rootStart, c.Clean ∧ c.tag ≠ "Contents".toList := by
  have hall : ∀ c ∈ rootStart, ('<' ∉ c.tag ∧ '>' ∉ c.tag ∧ '<' ∉ c.text) ∧ c.tag ≠ "Contents".toList := by decide
  exact hall

/-- All keys on one page. -/
def samplePage (keys : List (List Char)) : Page where
  head := rootStart ++ if keys = [] then rootEnd else []
  entries := sampleEntries keys
  next := none
  head_clean := by
    intro c hc
    rcases List.mem_append.1 hc with hc | hc
    · exact rootStart_clean c hc
    · split_ifs at hc
      · exact rootEnd_clean c hc
      · cases hc
  truncated := ⟨rootStart.take 2, _, _, _, rfl, rfl, rfl, rfl, by decide⟩
  token := by
    intro t ht
    cases ht

theorem sampleEntries_keys (keys : List (List Char)) : (sampleEntries keys).map Entry.key = keys := by
  fun_induction sampleEntries keys with
  | case1 => rfl
  | case2 key => rfl
  | case3 key keys hne ih =>
    rw [List.map_cons, ih]
    rfl

def done : Get := .found ⟨none, none, .ok []⟩

def sampleSend (now : Nat) (q : Request) : Work Get := fun b =>
  match q.method with
  | .put =>
      match q.body with
      | some (data, _) => (.ok done, b.insert q.key ⟨data, now⟩)
      | none => (.error "S3 answered HTTP 411".toList, b)
  | .delete => (.ok done, b.erase q.key)
  | .get =>
      if q.key = [] then
        (.ok (.found ⟨none, none, .ok (samplePage (b.keys.filter fun k =>
          ((q.query.lookup "prefix".toList).getD []).isPrefixOf k)).text⟩), b)
      else
        match b.lookup q.key with
        | none => (.ok .missing, b)
        | some o =>
            if o.content = [] then (.ok .empty, b)
            else (.ok (.found ⟨some ("bytes 0-0/".toList ++ Nat.toDigits 10 o.content.length), some 1, .ok []⟩), b)

/-- A server without failures, with one page to a listing. -/
def sampleServer (now : Nat) : Server where
  now := now
  send := sampleSend now
  get_keeps q b hget := by
    unfold sampleSend
    rw [hget]
    dsimp only
    split_ifs
    · rfl
    · cases b.lookup q.key with
      | none => rfl
      | some o =>
          dsimp only
          split_ifs
          · rfl
          · rfl
  put_stores key data contentType r b b' h := by
    cases h
    rfl
  delete_erases key g b b' h := by
    cases h
    rfl
  lists b keyPrefix := by
    refine ⟨[samplePage (b.keys.filter fun k => keyPrefix.isPrefixOf k)], .last ?_ rfl, ?_⟩
    · intro r xml hr hxml
      cases hr
      cases hxml
      rfl
    · rw [List.flatMap_singleton, samplePage, sampleEntries_keys]

def sampleConfig : Config where
  endpoint := "http://garage:3900".toList
  region := []
  bucket := "media".toList
  keyPrefix := []
  accessKey := "GK1".toList
  secretKey := "s".toList

def sampleBucket : Bucket := (∅ : Bucket).insert "backups/portal-1101.tar.gz".toList ⟨[1, 2], 1⟩

theorem sample_clock : ∀ k o, sampleBucket.lookup k = some o → o.time < 2 := by
  intro k o h
  by_cases hk : k = "backups/portal-1101.tar.gz".toList
  · subst hk
    rw [sampleBucket, AList.lookup_insert] at h
    rw [← Option.some.inj h]
    decide
  · rw [sampleBucket, AList.lookup_insert_ne hk, AList.lookup_empty] at h
    cases h

/-- An upload to this bucket, of which one archive is kept. -/
def sampleUpload (name : String) : Except (List Char) (Option Uploaded) × Bucket :=
  upload (sampleServer 2).send (some sampleConfig) name.toList 1 [3] 1 sampleBucket

theorem sampleUpload_ok :
    (sampleUpload "portal-1102.tar.gz").1 =
        .ok (some ⟨"backups/portal-1102.tar.gz".toList, 1, 1, ["portal-1101.tar.gz".toList]⟩) ∧
      (sampleUpload "manual.tar.gz").1 =
        .ok (some ⟨"backups/manual.tar.gz".toList, 1, 1, ["manual.tar.gz".toList]⟩) := by
  decide +kernel

theorem sampleUpload_eq :
    sampleUpload "portal-1102.tar.gz" =
      (.ok (some ⟨"backups/portal-1102.tar.gz".toList, 1, 1, ["portal-1101.tar.gz".toList]⟩),
        (sampleUpload "portal-1102.tar.gz").2) := by
  rw [← sampleUpload_ok.1]

theorem keepsNewest_sample :
    ∃ cfg, some sampleConfig = some cfg ∧
      (KeepsNewest cfg (cfg.key ["backups".toList, "portal-1102.tar.gz".toList]) [3] (sampleServer 2).now
          (1 : Int).toNat sampleBucket (sampleUpload "portal-1102.tar.gz").2 ↔
        NamesByAge cfg (1 : Int).toNat (sampleBucket.insert
          (cfg.key ["backups".toList, "portal-1102.tar.gz".toList]) ⟨[3], (sampleServer 2).now⟩)) :=
  keepsNewest_iff (sampleServer 2) (by decide) sample_clock sampleUpload_eq

/-- An archive whose name comes first is deleted as soon as it is sent. -/
theorem not_keepsNewest :
    (sampleUpload "manual.tar.gz").1 =
        .ok (some ⟨"backups/manual.tar.gz".toList, 1, 1, ["manual.tar.gz".toList]⟩) ∧
      ¬ KeepsNewest sampleConfig "backups/manual.tar.gz".toList [3] 2 1 sampleBucket
        (sampleUpload "manual.tar.gz").2 := by
  refine ⟨sampleUpload_ok.2, ?_⟩
  rintro ⟨hsent, -⟩
  have hgone : (sampleUpload "manual.tar.gz").2.lookup "backups/manual.tar.gz".toList = none := by decide +kernel
  rw [hgone] at hsent
  cases hsent

end Portal.Backups
