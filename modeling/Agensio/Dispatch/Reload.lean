/-
  Agensio.Dispatch.Reload — the file cache across a reload.

  Model of `serving_same` and `carry_cache_scopes` (`config.cpp`), and of the
  type and the codings `serve_location` puts into an entry
  (`handlers/static.cpp`, `served_type`).  An entry is found again by the id
  of its location; a loaded location takes the id of the running one it
  serves the same files as.  A directory's entry holds the CHOICE of its
  index, which depends on the whole site and not on its location alone.

  Main results:
    * `carried_entry_current_iff` — a carried entry answers as an empty cache
      would exactly when the location passes `serving_same` and the loaded
      site decides the index files as the running one did.
-/
import Agensio.Dispatch.Dispatcher

namespace Agensio.Dispatch

open Agensio.Http (slash dot)

/-! ## §1. What an entry holds besides its file. -/

section Content

variable (builtin : Bytes → ServedType) (compressible : Bytes → Bool)

/-- The part of a path after its last slash. -/
def baseName (fs : Bytes) : Bytes := (fs.reverse.takeWhile (· ≠ slash)).reverse

/-- The endings of a name, the longest first; none is longer than 32 bytes. -/
def nameEndings (name : Bytes) : List Bytes :=
  let whole : Bool := name.length ≤ 33
  let tail := (name.drop (name.length - 33)).map lower
  (List.range tail.length).filterMap fun i =>
    if tail[i]? = some dot && (if whole then 1 else 0) ≤ i then some (tail.drop (i + 1)) else none

/-- `served_type`: the path's own entry, then an ending's, then the built-in table. -/
def servedType (table : MimeTypes) (sitePath fs : Bytes) : ServedType :=
  match table.paths.lookup sitePath with
  | some t => t
  | none =>
    match (nameEndings (baseName fs)).findSome? fun e => table.endings.lookup e with
    | some t => t
    | none => builtin fs

/-- `StaticHandler::type_of`. -/
def typeOf (loc : Location) (path fs : Bytes) : ServedType :=
  if loc.mimeTypes.paths = [] || path.getLast? ≠ some slash then servedType builtin loc.mimeTypes path fs
  else servedType builtin loc.mimeTypes (path ++ baseName fs) fs

/-- What the file system and the server say of the file just read. -/
structure Filling where
  size : Nat
  settled : Bool := true
  precompressed : Bool := true
  copyMaker : Bool := true
  -- the twin of that ending is there, not older than the file and not still being written
  twin : Bytes → Bool := fun _ => false
  within : Bytes → Bool := fun _ => true

/-- `offered`. -/
def Compression.offers (c : Compression) (e : Encoding) : Bool :=
  !c.enabled || !c.codingsWritten || c.mask e

def twinEnding : Encoding → Bytes
  | .br => bytes ".br"
  | _ => bytes ".gz"

/-- `load_variants`: the compressed files beside the file. -/
def twins (c : Compression) (loc : Location) (f : Filling) (t : ServedType) (fs : Bytes) :
    List Encoding :=
  if !f.settled || !f.precompressed || t.encoding ≠ [] then []
  else [Encoding.br, .gzip].filter fun e => c.offers e && f.twin (fs ++ twinEnding e) &&
    (!loc.symlinksDeny || f.within (fs ++ twinEnding e))

/-- `copies_wanted`: the copies agensio makes itself. -/
def copiesWanted (c : Compression) (f : Filling) (t : ServedType) (ts : List Encoding) :
    List Encoding :=
  if !f.copyMaker || !f.settled || !c.enabled || ts ≠ [] || t.encoding ≠ [] then []
  else if f.size < c.minSize || 8 * 2 ^ 20 < f.size then []
  else if !compressible t.type && !c.extraTypes.contains t.type then []
  else [Encoding.br, .gzip].filter c.mask

/-- An entry's content type, and its codings on disk and made. -/
structure Baked where
  type : ServedType
  twins : List Encoding
  copies : List Encoding
  deriving DecidableEq

def bake (c : Compression) (loc : Location) (f : Filling) (path fs : Bytes) : Baked :=
  let t := typeOf builtin loc path fs
  let ts := twins c loc f t fs
  ⟨t, ts, copiesWanted compressible c f t ts⟩

end Content

/-! ## §2. `serving_same` and `carry_cache_scopes`. -/

def Compression.same (a b : Compression) : Bool :=
  a.enabled = b.enabled && a.minSize = b.minSize && a.extraTypes = b.extraTypes &&
    a.codingsWritten = b.codingsWritten && ([Encoding.zstd, .br, .gzip].all fun e => a.mask e = b.mask e) &&
    a.order = b.order

/-- `serving_same`: `a` of the loaded site `sa` serves the same files the same way as `b`. -/
def servingSame (a : Location) (sa : Site) (b : Location) (sb : Site) : Bool :=
  a.kind = .static_ && b.kind = .static_ && a.deny = b.deny && a.root = b.root &&
    a.aliasDir = b.aliasDir && a.index = b.index && a.tryFiles = b.tryFiles &&
    a.symlinksDeny = b.symlinksDeny && a.mimeTypes = b.mimeTypes && sa.compression.same sb.compression

namespace Site

/-- The running location at the same place: the last one. -/
def counterpart (r : Site) (loc : Location) : Option Location :=
  r.locations.reverse.find? fun x =>
    x.path = loc.path && x.isExact = loc.isExact && x.isSuffix = loc.isSuffix

/-- A location takes the id of the running one it serves the same as. -/
def carryLocation (site r : Site) (loc : Location) : Location :=
  if loc.kind ≠ .static_ || loc.deny then loc
  else
    match r.counterpart loc with
    | none => loc
    | some rl => if servingSame loc site rl r then { loc with id := rl.id } else loc

/-- A loaded site with the ids of the running one. -/
def carryFrom (site r : Site) : Site :=
  { site with
    locations := site.locations.map (carryLocation site r)
    locations_ne := by simp [site.locations_ne]
    validation :=
      if site.httpRedirect && r.httpRedirect && site.validation.root = r.validation.root then
        { site.validation with id := r.validation.id }
      else site.validation
    validation_static := by split <;> exact site.validation_static }

/-- The running site a loaded one goes on from: the same names, and of several the same addresses. -/
def predecessor (site : Site) (running : List Site) (taken : List Nat) : Option (Nat × Site) :=
  let candidates := running.zipIdx.filter fun x =>
    !taken.contains x.2 && x.1.serverNames.isPerm site.serverNames
  let chosen := (candidates.reverse.find? fun x => x.1.listen = site.listen).or candidates.head?
  (chosen.filter fun x => candidates.length ≤ 1 || x.1.listen = site.listen).map fun x => (x.2, x.1)

end Site

/-- `carry_cache_scopes`; a site marked is one copied whole from the running configuration. -/
def carryCacheScopes (running : List Site) : List Nat → List (Site × Bool) → List Site
  | _, [] => []
  | taken, (site, true) :: rest => site :: carryCacheScopes running taken rest
  | taken, (site, false) :: rest =>
    match site.predecessor running taken with
    | none => site :: carryCacheScopes running taken rest
    | some (k, r) => site.carryFrom r :: carryCacheScopes running (k :: taken) rest

/-- A running configuration and one just loaded: no two locations of the process share an id. -/
structure Reload where
  running : List Site
  fresh : List (Site × Bool)
  ids : ∀ R ∈ running, ∀ r ∈ R.served, ∀ R' ∈ running, ∀ r' ∈ R'.served, r.id = r'.id →
    R = R' ∧ r = r'
  fresh_ids : ∀ F, (F, false) ∈ fresh → ∀ l ∈ F.served, ∀ R ∈ running, ∀ r ∈ R.served, l.id ≠ r.id
  copied : ∀ F, (F, true) ∈ fresh → F ∈ running
  validation_alias : ∀ R ∈ running, R.validation.aliasDir = []

/-! ## §3. Whose id a loaded location has. -/

namespace Reload

variable (c : Reload)

def carry : List Site := carryCacheScopes c.running [] c.fresh

theorem predecessor_mem {site : Site} {running : List Site} {taken : List Nat} {k : Nat} {r : Site}
    (h : site.predecessor running taken = some (k, r)) : r ∈ running := by
  unfold Site.predecessor at h
  obtain ⟨x, hx, hkr⟩ := Option.map_eq_some_iff.mp h
  obtain ⟨hx, -⟩ := Option.filter_eq_some_iff.mp hx
  have hcand : x ∈ running.zipIdx.filter fun x =>
      !taken.contains x.2 && x.1.serverNames.isPerm site.serverNames := by
    rcases Option.or_eq_some_iff.mp hx with hf | ⟨-, hh⟩
    · exact List.mem_reverse.mp (List.mem_of_find?_eq_some hf)
    · exact List.mem_of_mem_head? hh
  cases hkr
  exact (List.mem_zipIdx' (List.mem_filter.mp hcand).1).2 ▸ List.getElem_mem _

theorem mem_served_iff {F : Site} {l : Location} :
    l ∈ F.served ↔ (F.httpRedirect = true ∧ l = F.validation) ∨ l ∈ F.locations := by
  unfold Site.served
  split
  · next h => rw [List.mem_cons, h]; simp
  · next h => simp [h]

theorem mem_served {F : Site} {l : Location} (h : l ∈ F.locations) : l ∈ F.served :=
  mem_served_iff.mpr (.inr h)

theorem validation_served {F : Site} (h : F.httpRedirect = true) : F.validation ∈ F.served :=
  mem_served_iff.mpr (.inl ⟨h, rfl⟩)

/-- A site after the reload: copied, loaded anew, or going on from a running one. -/
theorem carry_cases {running : List Site} {fresh : List (Site × Bool)} {F : Site} :
    ∀ {taken : List Nat}, F ∈ carryCacheScopes running taken fresh → (F, true) ∈ fresh ∨ (F, false) ∈ fresh ∨
        ∃ F₀, (F₀, false) ∈ fresh ∧ ∃ R ∈ running, F = F₀.carryFrom R := by
  induction fresh with
  | nil => intro taken h; cases h
  | cons x rest ih =>
    intro taken h
    obtain ⟨site, copied⟩ := x
    -- a site further down the list
    have hlater : ∀ {taken}, F ∈ carryCacheScopes running taken rest →
        (F, true) ∈ (site, copied) :: rest ∨ (F, false) ∈ (site, copied) :: rest ∨
          ∃ F₀, (F₀, false) ∈ (site, copied) :: rest ∧ ∃ R ∈ running, F = F₀.carryFrom R := by
      intro taken hF
      rcases ih hF with ht | hf | ⟨F₀, hF₀, hR⟩
      · exact .inl (.tail _ ht)
      · exact .inr (.inl (.tail _ hf))
      · exact .inr (.inr ⟨F₀, .tail _ hF₀, hR⟩)
    cases copied with
    | true =>
      rcases List.mem_cons.mp h with rfl | h
      · exact .inl (.head _)
      · exact hlater h
    | false =>
      unfold carryCacheScopes at h
      split at h
      · rcases List.mem_cons.mp h with rfl | h
        · exact .inr (.inl (.head _))
        · exact hlater h
      · next k r hp =>
        rcases List.mem_cons.mp h with rfl | h
        · exact .inr (.inr ⟨site, .head _, r, predecessor_mem hp, rfl⟩)
        · exact hlater h

/-- A site's own location with a running location's id is that location, or serves the same. -/
theorem carried_location {F R : Site} {l r : Location} (hF : F ∈ c.carry) (hl : l ∈ F.locations)
    (hR : R ∈ c.running) (hr : r ∈ R.served) (hid : l.id = r.id) :
    (F = R ∧ l = r) ∨ (l.path = r.path ∧ servingSame l F r R = true) := by
  rcases carry_cases hF with hcopy | hnew | ⟨F₀, hF₀, R₀, hR₀, rfl⟩
  · exact .inl (c.ids F (c.copied F hcopy) l (mem_served hl) R hR r hr hid)
  · exact absurd hid (c.fresh_ids F hnew l (mem_served hl) R hR r hr)
  obtain ⟨l₀, hl₀, rfl⟩ := List.mem_map.mp hl
  have hfresh := c.fresh_ids F₀ hF₀ l₀ (mem_served hl₀) R hR r hr
  revert hid
  unfold Site.carryLocation
  split
  · exact fun hid => absurd hid hfresh
  split
  · exact fun hid => absurd hid hfresh
  next rl hrl =>
  split
  · next hsame =>
    intro hid
    have hmem : rl ∈ R₀.locations := List.mem_reverse.mp (List.mem_of_find?_eq_some hrl)
    obtain ⟨rfl, rfl⟩ := c.ids R₀ hR₀ rl (mem_served hmem) R hR r hr hid
    have hplace := List.find?_some hrl
    simp only [Bool.and_eq_true, decide_eq_true_eq] at hplace
    exact .inr ⟨hplace.1.1.symm, hsame⟩
  · exact fun hid => absurd hid hfresh

/-- The validation location with a running location's id is that location, or has its root. -/
theorem carried_validation {F R : Site} {r : Location} (hF : F ∈ c.carry)
    (hredirect : F.httpRedirect = true) (hR : R ∈ c.running) (hr : r ∈ R.served)
    (hid : F.validation.id = r.id) :
    (F = R ∧ F.validation = r) ∨ (r = R.validation ∧ F.validation.root = r.root) := by
  rcases carry_cases hF with hcopy | hnew | ⟨F₀, hF₀, R₀, hR₀, rfl⟩
  · exact .inl (c.ids F (c.copied F hcopy) _ (validation_served hredirect) R hR r hr hid)
  · exact absurd hid (c.fresh_ids F hnew _ (validation_served hredirect) R hR r hr)
  have hredirect₀ : F₀.httpRedirect = true := hredirect
  have hfresh := c.fresh_ids F₀ hF₀ _ (validation_served hredirect₀) R hR r hr
  revert hid
  unfold Site.carryFrom
  split
  · next hcond =>
    intro hid
    simp only [Bool.and_eq_true, decide_eq_true_eq] at hcond
    obtain ⟨rfl, rfl⟩ := c.ids R₀ hR₀ _ (validation_served hcond.1.2) R hR r hr hid
    exact .inr ⟨rfl, hcond.2⟩
  · exact fun hid => absurd hid hfresh

/-- **Whose id a loaded location has**: one that serves the same is looked up at the same files. -/
theorem carried_fsPathOf {F R : Site} {l r : Location} (hF : F ∈ c.carry) (hl : l ∈ F.served)
    (hR : R ∈ c.running) (hr : r ∈ R.served) (hid : l.id = r.id)
    (hsame : servingSame l F r R = true) (p : Bytes) : fsPathOf l p = fsPathOf r p := by
  have hroot : l.root = r.root ∧ l.aliasDir = r.aliasDir := by
    simp only [servingSame, Bool.and_eq_true, decide_eq_true_eq] at hsame
    exact ⟨hsame.1.1.1.1.1.1.2, hsame.1.1.1.1.1.2⟩
  rcases mem_served_iff.mp hl with ⟨hredirect, rfl⟩ | hl
  · rcases c.carried_validation hF hredirect hR hr hid with ⟨-, h⟩ | ⟨h, -⟩
    · rw [h]
    have halias : r.aliasDir = [] := h ▸ c.validation_alias R hR
    simp only [fsPathOf, hroot.1, hroot.2, halias, if_true]
  · rcases c.carried_location hF hl hR hr hid with ⟨-, h⟩ | ⟨hpath, -⟩
    · rw [h]
    · simp only [fsPathOf, hroot.1, hroot.2, hpath]

end Reload

/-! ## §4. When an index is chosen. -/

namespace Site

variable (site : Site)

/-- The site refuses a request for `path` by name. -/
def refusesAt (path : Bytes) : Bool := site.refusedRequest (site.location path) path

/-- The index names tried before `n`. -/
def triedBefore (names : List Bytes) (n : Bytes) : List Bytes := names.takeWhile (· ≠ n)

variable {site} {loc : Location} {disk : Disk} {path : Bytes}

/-- **When an index is chosen**: it is there, by name and by rule the directory's own, and what was
    tried before it is missing or refused. -/
theorem indexLookup_found_iff (names : List Bytes) (n : Bytes) :
    site.indexLookup loc disk path names = some (.found (some n)) ↔
      n ∈ names ∧ disk.opened (fsPathOf loc path ++ n) = some .regular ∧
        site.refusesAt (path ++ n) = false ∧ site.reroutes loc path (path ++ n) = false ∧
        ∀ m ∈ triedBefore names n, disk.opened (fsPathOf loc path ++ m) = some .regular →
          site.refusesAt (path ++ m) = true := by
  induction names with
  | nil => simp [indexLookup]
  | cons m names ih =>
    have hskip : m ≠ n → triedBefore (m :: names) n = m :: triedBefore names n := by
      intro h
      simp [triedBefore, h]
    unfold indexLookup
    split
    -- not there: passed over, and `n` is there
    · next hgone =>
      rw [ih]
      constructor
      · rintro ⟨hn, hreg, href, hroute, hbefore⟩
        have hne : m ≠ n := by rintro rfl; exact hgone hreg
        refine ⟨.tail _ hn, hreg, href, hroute, ?_⟩
        rw [hskip hne]
        intro x hx hxreg
        rcases List.mem_cons.mp hx with rfl | hx
        · exact absurd hxreg hgone
        · exact hbefore x hx hxreg
      · rintro ⟨hn, hreg, href, hroute, hbefore⟩
        have hne : m ≠ n := by rintro rfl; exact hgone hreg
        rw [hskip hne] at hbefore
        exact ⟨(List.mem_cons.mp hn).resolve_left (Ne.symm hne), hreg, href, hroute,
          fun x hx => hbefore x (.tail _ hx)⟩
    next hthere =>
    rw [ne_eq, not_not] at hthere
    split
    -- refused by name: passed over, and `n` is not refused
    · next hrefused =>
      rw [ih]
      constructor
      · rintro ⟨hn, hreg, href, hroute, hbefore⟩
        have hne : m ≠ n := by rintro rfl; exact absurd href (by rw [refusesAt, hrefused]; decide)
        refine ⟨.tail _ hn, hreg, href, hroute, ?_⟩
        rw [hskip hne]
        intro x hx hxreg
        rcases List.mem_cons.mp hx with rfl | hx
        · exact hrefused
        · exact hbefore x hx hxreg
      · rintro ⟨hn, hreg, href, hroute, hbefore⟩
        have hne : m ≠ n := by rintro rfl; exact absurd href (by rw [refusesAt, hrefused]; decide)
        rw [hskip hne] at hbefore
        exact ⟨(List.mem_cons.mp hn).resolve_left (Ne.symm hne), hreg, href, hroute,
          fun x hx => hbefore x (.tail _ hx)⟩
    -- there and not refused: the lookup ends here, one way or the other
    next hrefused =>
    have hfirst : ∀ (_ : n ∈ m :: names) (_ : ∀ x ∈ triedBefore (m :: names) n,
        disk.opened (fsPathOf loc path ++ x) = some .regular → site.refusesAt (path ++ x) = true),
        m = n := by
      intro _ hbefore
      by_contra hne
      rw [hskip hne] at hbefore
      exact hrefused (hbefore m (.head _) hthere)
    split
    · next hroutes =>
      constructor
      · intro h; cases h
      · rintro ⟨hn, -, -, hroute, hbefore⟩
        rw [hfirst hn hbefore] at hroutes
        rw [hroute] at hroutes
        cases hroutes
    · next hroutes =>
      constructor
      · intro h
        cases h
        refine ⟨.head _, hthere, by simpa [refusesAt] using hrefused,
          by simpa using hroutes, ?_⟩
        intro x hx
        simp [triedBefore] at hx
      · rintro ⟨hn, -, -, -, hbefore⟩
        rw [hfirst hn hbefore]

/-- An index is found under its name. -/
theorem indexLookup_ne_own (names : List Bytes) :
    site.indexLookup loc disk path names ≠ some (.found none) := by
  induction names with
  | nil => simp [indexLookup]
  | cons m names ih =>
    unfold indexLookup
    split
    · exact ih
    split
    · exact ih
    split
    · simp
    · simp

/-- Only a directory's own path has an index, and only its index. -/
theorem lookupFile_found {name : Option Bytes} (h : site.lookupFile loc disk path = .found name) :
    (path.getLast? ≠ some slash ∧ name = none) ∨ (path.getLast? = some slash ∧ ∃ n, name = some n ∧
        site.indexLookup loc disk path loc.index = some (.found (some n))) := by
  have hindex : ∀ {r : Lookup}, site.indexLookup loc disk path loc.index = some r → r = .found name →
      ∃ n, name = some n ∧ site.indexLookup loc disk path loc.index = some (.found (some n)) := by
    rintro r hr rfl
    cases indexLookup_looked (fun _ hn => hn) hr with
    | file => exact absurd hr (indexLookup_ne_own loc.index)
    | index hn _ => exact ⟨_, rfl, hr⟩
  have htry : ∀ steps, site.tryFilesLookup loc disk path steps = .found name →
      (path.getLast? ≠ some slash ∧ name = none) ∨
      (path.getLast? = some slash ∧ ∃ n, name = some n ∧
        site.indexLookup loc disk path loc.index = some (.found (some n))) := by
    intro steps hs
    induction steps with
    | nil => cases hs
    | cons t steps ih =>
      cases t with
      | uri =>
        unfold tryFilesLookup at hs
        split at hs
        · next hcond =>
          rw [Bool.and_eq_true, decide_eq_true_eq] at hcond
          cases hs
          exact .inl ⟨hcond.1, rfl⟩
        · exact ih hs
      | uriDir =>
        unfold tryFilesLookup at hs
        split at hs
        · next hdir =>
          split at hs
          · next r hr => exact .inr ⟨hdir, hindex hr hs⟩
          · exact ih hs
        · split at hs
          · cases hs
          · exact ih hs
      | fallback target => cases hs
      | status code => cases hs
  unfold lookupFile at h
  split at h
  · unfold plainLookup at h
    split at h
    · next hdir =>
      split at h
      · next r hr => exact .inr ⟨hdir, hindex hr h⟩
      · cases h
    · next hdir =>
      split at h
      · cases h; exact .inl ⟨hdir, rfl⟩
      · cases h
      · cases h
  · exact htry _ h

/-- Two lookups agree when they look at the same files and choose the same index. -/
theorem lookupFile_congr {site' : Site} {loc' : Location}
    (htry : loc'.tryFiles = loc.tryFiles) (hfs : fsPathOf loc' path = fsPathOf loc path)
    (hindex : path.getLast? = some slash →
      site'.indexLookup loc' disk path loc'.index = site.indexLookup loc disk path loc.index) :
    site'.lookupFile loc' disk path = site.lookupFile loc disk path := by
  have hsteps : ∀ steps, site'.tryFilesLookup loc' disk path steps =
      site.tryFilesLookup loc disk path steps := by
    intro steps
    induction steps with
    | nil => rfl
    | cons t steps ih =>
      cases t with
      | uri => simp only [tryFilesLookup, hfs, ih]
      | uriDir =>
        unfold tryFilesLookup
        split
        · next hdir => rw [hindex hdir, ih]
        · rw [hfs, ih]
      | fallback target => rfl
      | status code => rfl
  unfold lookupFile
  rw [htry, hsteps]
  split
  · unfold plainLookup
    split
    · next hdir => rw [hindex hdir, hfs]
    · rw [hfs]
  · rfl

end Site

/-! ## §5. A carried entry. -/

section Entry

variable (builtin : Bytes → ServedType) (compressible : Bytes → Bool)

/-- A static location of a running site filled an entry for `p`. -/
structure Filled (R : Site) (r : Location) (disk : Disk) (p : Bytes) (name : Option Bytes) : Prop where
  kind : r.kind = .static_
  miss : R.serveLocation [] r disk p true = .file name

/-- The entry is what the loaded site would answer with an empty cache. -/
structure Current (F R : Site) (l r : Location) (disk : Disk) (f : Filling) (p : Bytes)
    (name : Option Bytes) : Prop where
  miss : F.serveLocation [] l disk p true = .file name
  file : Site.fileOf l p name = Site.fileOf r p name
  baked : bake builtin compressible F.compression l f p (Site.fileOf l p name) =
    bake builtin compressible R.compression r f p (Site.fileOf r p name)

/-- The two sites refuse the same of the index files up to `n`, and send `n` on or neither does. -/
structure SameChoice (F R : Site) (l r : Location) (disk : Disk) (p n : Bytes) : Prop where
  refused : ∀ m, m ∈ Site.triedBefore r.index n ∨ m = n →
    disk.opened (fsPathOf r p ++ m) = some .regular → F.refusesAt (p ++ m) = R.refusesAt (p ++ m)
  routed : F.reroutes l p (p ++ n) = R.reroutes r p (p ++ n)

variable {F R : Site} {l r : Location} {disk : Disk} {f : Filling} {p : Bytes} {name : Option Bytes}

/-- What `serving_same` compares. -/
theorem servingSame_iff : servingSame l F r R = true ↔
    ((((((((l.kind = .static_ ∧ r.kind = .static_) ∧ l.deny = r.deny) ∧ l.root = r.root) ∧
      l.aliasDir = r.aliasDir) ∧ l.index = r.index) ∧ l.tryFiles = r.tryFiles) ∧
      l.symlinksDeny = r.symlinksDeny) ∧ l.mimeTypes = r.mimeTypes) ∧
      F.compression.same R.compression = true := by
  simp only [servingSame, Bool.and_eq_true, decide_eq_true_eq]

theorem servingSame_refl (h : r.kind = .static_) : servingSame r R r R = true := by
  rw [servingSame_iff]
  simp [h, Compression.same]

theorem Compression.eq_of_same {a b : Compression} (h : a.same b = true) : a = b := by
  simp only [Compression.same, Bool.and_eq_true, decide_eq_true_eq, List.all_cons, List.all_nil] at h
  obtain ⟨⟨⟨⟨⟨he, hm⟩, hx⟩, hw⟩, hz, hbr, hg, -⟩, ho⟩ := h
  have hmask : a.mask = b.mask := by
    funext e
    cases e
    · exact hz
    · exact hbr
    · exact hg
  cases a
  cases b
  simp_all

/-- The codings and the type depend on what `serving_same` compares and the file alone. -/
theorem bake_congr (hsame : servingSame l F r R = true) (fs : Bytes) :
    bake builtin compressible F.compression l f p fs = bake builtin compressible R.compression r f p fs := by
  obtain ⟨⟨⟨-, hsym⟩, hmime⟩, hcomp⟩ := servingSame_iff.mp hsame
  have hc := Compression.eq_of_same hcomp
  have htype : typeOf builtin l p fs = typeOf builtin r p fs := by
    unfold typeOf
    rw [hmime]
  have htwins : ∀ t, twins R.compression l f t fs = twins R.compression r f t fs := by
    intro t
    unfold twins
    rw [hsym]
  simp only [bake, htype, htwins, hc]

/-- A miss that gives a file found it, inside the root where that is asked, and read it. -/
theorem serveMiss_file_iff : R.serveMiss r disk p = .file name ↔ R.lookupFile r disk p = .found name ∧
      (r.symlinksDeny = true → disk.within (Site.fileOf r p name) = true) ∧
      disk.readable (Site.fileOf r p name) = true := by
  unfold Site.serveMiss
  split
  · next h => rw [h]; simp
  · next h => rw [h]; simp
  next m h =>
  rw [h]
  split
  · next hcond =>
    constructor
    · intro h; cases h
    · rintro ⟨hn, hin, -⟩
      cases hn
      simp only [Bool.and_eq_true, Bool.not_eq_true'] at hcond
      rw [hin hcond.1] at hcond
      exact absurd hcond.2 (by decide)
  next hcond =>
  split
  · next hread =>
    constructor
    · intro h; cases h
    · rintro ⟨hn, -, hr⟩
      cases hn
      rw [hr] at hread
      cases hread
  · next hread =>
    constructor
    · intro h
      cases h
      refine ⟨rfl, ?_, by simpa using hread⟩
      intro hdeny
      by_contra hout
      exact hcond (by simp [hdeny, hout])
    · rintro ⟨hn, -, -⟩
      cases hn
      rfl

/-- With an empty cache the file is looked up, past the two checks before the cache. -/
theorem serveLocation_nil_file (h : R.serveLocation [] r disk p true = .file name) :
    R.serveMiss r disk p = .file name := by
  unfold Site.serveLocation at h
  split at h
  · cases h
  split at h
  · cases h
  · exact h

/-- A location that answers from an entry passed the checks before the cache. -/
theorem serveLocation_hit {e : CachedFile} (h : F.serveLocation [e] l disk p true = .file name) :
    F.serveLocation [] l disk p true = F.serveMiss l disk p := by
  unfold Site.serveLocation at h ⊢
  split at h
  · cases h
  split at h
  · cases h
  next hroot hname =>
  rw [if_neg hroot, if_neg hname]
  rfl

/-- The loaded site chooses the same index exactly when it decides the index files the same way. -/
theorem lookupFile_same_iff (htry : l.tryFiles = r.tryFiles) (hindex : l.index = r.index)
    (hfs : fsPathOf l p = fsPathOf r p) (hfill : R.lookupFile r disk p = .found name) :
    F.lookupFile l disk p = .found name ↔ ∀ n, name = some n → SameChoice F R l r disk p n := by
  constructor
  · rintro hload n rfl
    rcases Site.lookupFile_found hfill with ⟨-, h⟩ | ⟨-, n', h, hR⟩
    · cases h
    rcases Site.lookupFile_found hload with ⟨-, h'⟩ | ⟨-, n'', h', hF⟩
    · cases h'
    cases h
    cases h'
    obtain ⟨-, -, hrefR, hrouteR, hbeforeR⟩ := (Site.indexLookup_found_iff _ _).mp hR
    obtain ⟨-, -, hrefF, hrouteF, hbeforeF⟩ := (Site.indexLookup_found_iff _ _).mp hF
    rw [hfs, hindex] at hbeforeF
    refine ⟨?_, by rw [hrouteF, hrouteR]⟩
    rintro m (hm | rfl) hreg
    · rw [hbeforeF m hm hreg, hbeforeR m hm hreg]
    · rw [hrefF, hrefR]
  · intro hsame
    rw [← hfill]
    refine Site.lookupFile_congr htry hfs ?_
    intro hdir
    rcases Site.lookupFile_found hfill with ⟨hfile, -⟩ | ⟨-, n, rfl, hR⟩
    · exact absurd hdir hfile
    have hchoice := hsame n rfl
    obtain ⟨hn, hreg, href, hroute, hbefore⟩ := (Site.indexLookup_found_iff _ _).mp hR
    rw [hR, Site.indexLookup_found_iff, hindex, hfs]
    refine ⟨hn, hreg, ?_, ?_, ?_⟩
    · rw [hchoice.refused n (.inr rfl) hreg, href]
    · rw [hchoice.routed, hroute]
    · intro m hm hmreg
      rw [hchoice.refused m (.inl hm) hmreg, hbefore m hm hmreg]

/-- **A carried entry.**  When a loaded location finds an entry that a running one filled, and the two
    serve the same, the entry is what an empty cache would give if the loaded site decides the index
    files up to the chosen one as the running site did; for a location of the site (not the one of
    certificate validation) it is so only then. -/
theorem carried_entry_current_iff (c : Reload) (hF : F ∈ c.carry) (hl : l ∈ F.served)
    (hR : R ∈ c.running) (hr : r ∈ R.served) (hid : l.id = r.id) (hfill : Filled R r disk p name)
    (hhit : F.serveLocation [⟨r.id, p, name⟩] l disk p true = .file name) :
    ((servingSame l F r R = true ∧ ∀ n, name = some n → SameChoice F R l r disk p n) →
        Current builtin compressible F R l r disk f p name) ∧
      (l ∈ F.locations → Current builtin compressible F R l r disk f p name →
        servingSame l F r R = true ∧ ∀ n, name = some n → SameChoice F R l r disk p n) := by
  obtain ⟨hfound, hwithin, hread⟩ := serveMiss_file_iff.mp (serveLocation_nil_file hfill.miss)
  constructor
  · rintro ⟨hsame, hchoice⟩
    have hfs := c.carried_fsPathOf hF hl hR hr hid hsame p
    have hfile : Site.fileOf l p name = Site.fileOf r p name := by simp only [Site.fileOf, hfs]
    obtain ⟨⟨⟨⟨⟨-, hindex⟩, htry⟩, hsym⟩, -⟩, -⟩ := servingSame_iff.mp hsame
    refine ⟨?_, hfile, hfile ▸ bake_congr builtin compressible hsame _⟩
    rw [serveLocation_hit hhit, serveMiss_file_iff, hfile, hsym]
    exact ⟨(lookupFile_same_iff htry hindex hfs hfound).mpr hchoice, hwithin, hread⟩
  · intro hown hcur
    have hsame : servingSame l F r R = true := by
      rcases c.carried_location hF hown hR hr hid with ⟨rfl, rfl⟩ | ⟨-, h⟩
      · exact servingSame_refl hfill.kind
      · exact h
    have hfs := c.carried_fsPathOf hF hl hR hr hid hsame p
    obtain ⟨⟨⟨⟨⟨-, hindex⟩, htry⟩, -⟩, -⟩, -⟩ := servingSame_iff.mp hsame
    obtain ⟨hload, -⟩ := serveMiss_file_iff.mp (serveLocation_nil_file hcur.miss)
    exact ⟨hsame, (lookupFile_same_iff htry hindex hfs hfound).mp hload⟩

end Entry

/-! ## §6. A directory cached before its index got a rule. -/

namespace Homepage

def home (id : Nat) : Location :=
  { id := id, path := [slash], root := bytes "/srv", index := [bytes "index.html"] }

/-- A site of one directory, with the rules given. -/
def site (id : Nat) (rules : List AccessRule) : Site :=
  { access := rules, locations := [home id], locations_ne := by simp }

/-- Nobody may read the page itself. -/
def closed : AccessRule := { path := bytes "/index.html", isExact := true, rooted := rfl }

/-- A rule for another page. -/
def drafts : AccessRule := { path := bytes "/drafts.html", isExact := true, rooted := rfl }

/-- The site is loaded again with the rules given. -/
def reload (rules : List AccessRule) : Reload where
  running := [site 1 []]
  fresh := [(site 2 rules, false)]
  ids := by
    intro R hR r hr R' hR' r' hr' _
    cases List.mem_singleton.mp hR
    cases List.mem_singleton.mp hR'
    cases List.mem_singleton.mp hr
    cases List.mem_singleton.mp hr'
    exact ⟨rfl, rfl⟩
  fresh_ids := by
    intro F hF l hl R hR r hr
    cases List.mem_singleton.mp hF
    cases List.mem_singleton.mp hR
    cases List.mem_singleton.mp hl
    cases List.mem_singleton.mp hr
    decide
  copied := by
    intro F hF
    cases List.mem_singleton.mp hF
  validation_alias := by
    intro R hR
    cases List.mem_singleton.mp hR
    rfl

def disk : Disk :=
  { opened := fun f => if f = bytes "/srv/index.html" then some .regular else none }

/-- The site as it runs after the reload, under its running id. -/
def loaded (rules : List AccessRule) : Site := (site 2 rules).carryFrom (site 1 [])

theorem loaded_mem (rules : List AccessRule) : loaded rules ∈ (reload rules).carry :=
  List.mem_singleton.mpr rfl

theorem home_mem (rules : List AccessRule) : home 1 ∈ (loaded rules).served :=
  List.mem_singleton.mpr rfl

theorem filled : Filled (site 1 []) (home 1) disk [slash] (some (bytes "index.html")) :=
  ⟨rfl, by decide +kernel⟩

end Homepage

open Homepage in
/-- Another page got a rule: the directory's entry is current. -/
theorem carried_entry_current_same : Current (fun _ => ⟨bytes "text/html", []⟩) (fun _ => true)
    (loaded [drafts]) (site 1 []) (home 1) (home 1) disk { size := 10 } [slash] (some (bytes "index.html")) := by
  refine (carried_entry_current_iff _ _ (reload [drafts]) (loaded_mem _) (home_mem _)
    (List.mem_singleton.mpr rfl) (List.mem_singleton.mpr rfl) rfl filled (by decide +kernel)).1 ⟨by decide +kernel, ?_⟩
  rintro n h
  cases h
  exact ⟨fun m _ _ => by rfl, by decide +kernel⟩

open Homepage in
/-- The page got a rule of its own: an empty cache would bring its path before the rule, the entry
    answers without it. -/
theorem cached_home_passes_its_new_rule :
    ∃ c : Reload, ∃ F ∈ c.carry, ∃ l ∈ F.served, ∃ R ∈ c.running, ∃ r ∈ R.served,
      l.id = r.id ∧ Filled R r disk [slash] (some (bytes "index.html")) ∧
      F.serveLocation [⟨r.id, [slash], some (bytes "index.html")⟩] l disk [slash] true =
        .file (some (bytes "index.html")) ∧
      F.serveLocation [] l disk [slash] true = .redirect (bytes "/index.html") ∧
      (F.decide disk.isFile ⟨false, 0, 0x7f000001⟩ (bytes "/index.html")).refuse = true := by
  refine ⟨reload [closed], loaded [closed], loaded_mem _, home 1, home_mem _, site 1 [],
    List.mem_singleton.mpr rfl, home 1, List.mem_singleton.mpr rfl, rfl, filled, by decide +kernel,
    by decide +kernel, by decide +kernel⟩

end Agensio.Dispatch
