import ImageLedger.Node.Lookup
import ImageLedger.Proofs.Node.AcceptedBatch
import ImageLedger.Proofs.Store.InclusionProof
import Mathlib.Data.Rat.Floor

namespace ImageLedger

namespace Number

/-- There may be so many, each of them while there are fewer than the limit. -/
def Allows (limit : Number) (count : Nat) : Prop := ∀ i < count, lt (ofNat i) limit = true

variable {limit : Number} {count : Nat}

theorem Allows.of_le {more : Nat} (h : limit.Allows more) (hcount : count ≤ more) :
    limit.Allows count := fun i hi => h i (Nat.lt_of_lt_of_le hi hcount)

theorem allows_succ : limit.Allows (count + 1) ↔
    limit.Allows count ∧ lt (ofNat count) limit = true := by
  constructor
  · intro h
    exact ⟨h.of_le (Nat.le_succ count), h count (Nat.lt_succ_self count)⟩
  · rintro ⟨h, hlast⟩ i hi
    rcases Nat.lt_succ_iff_lt_or_eq.mp hi with hi | rfl
    · exact h i hi
    · exact hlast

/-- A limit counts as the next whole number. -/
theorem allows_iff_le_ceil (hlimit : le 0 limit = true) (hcount : count ≤ wholeLimit) :
    limit.Allows count ↔ ∀ q, limit = finite q → count ≤ ⌈q⌉₊ := by
  have hsmall : ∀ i < count, ofNat i = finite i := fun i hi => ofNat_eq (by omega)
  cases limit with
  | nan => cases hlimit
  | infinite negative =>
    cases negative with
    | true => cases hlimit
    | false =>
      refine iff_of_true (fun i hi => ?_) nofun
      rw [hsmall i hi]
      rfl
  | finite q =>
    have hbelow : ∀ i < count, (lt (ofNat i) (finite q) = true ↔ i < ⌈q⌉₊) := by
      intro i hi
      rw [hsmall i hi, Nat.lt_ceil, lt, decide_eq_true_eq]
    have hceil : (∀ i < count, i < ⌈q⌉₊) ↔ count ≤ ⌈q⌉₊ := by
      constructor
      · intro h
        by_contra hgreater
        exact Nat.lt_irrefl _ (h ⌈q⌉₊ (Nat.lt_of_not_le hgreater))
      · intro h i hi
        exact Nat.lt_of_lt_of_le hi h
    rw [Allows, forall₂_congr hbelow, hceil]
    simp

end Number

namespace Store

variable {s : Store} {maxDepth : Number} {current : Option String} {hash : String}
  {met rest hashes other : List String}

/-- Hashes on the ledger from the first one on, each the recorded parent of the one before it, and
none of them twice. -/
structure Lineage (s : Store) (first : Option String) (hashes : List String) : Prop where
  first : ∀ hash ∈ hashes.head?, first = some hash
  recorded : ∀ hash ∈ hashes, ∃ r ∈ s.images, r.imageHash = hash
  parents : hashes.IsChain fun hash parent =>
    ∃ r ∈ s.images, r.imageHash = hash ∧ r.parentImageHash = some parent
  nodup : hashes.Nodup

theorem lineage_nil (first : Option String) : s.Lineage first [] :=
  ⟨nofun, nofun, .nil, List.nodup_nil⟩

theorem lineage_cons : s.Lineage current (hash :: rest) ↔ current = some hash ∧ hash ∉ rest ∧
    ∃ r ∈ s.images, r.imageHash = hash ∧ s.Lineage r.parentImageHash rest := by
  constructor
  · intro h
    obtain ⟨hnew, hrest⟩ := List.nodup_cons.mp h.nodup
    refine ⟨h.first hash rfl, hnew, ?_⟩
    cases rest with
    | nil =>
      obtain ⟨r, hr, hown⟩ := h.recorded hash List.mem_cons_self
      exact ⟨r, hr, hown, lineage_nil _⟩
    | cons parent rest =>
      obtain ⟨⟨r, hr, hown, hparent⟩, hparents⟩ := List.isChain_cons_cons.mp h.parents
      refine ⟨r, hr, hown, ?_, fun g hg => h.recorded g (List.mem_cons_of_mem hash hg), hparents,
        hrest⟩
      intro g hg
      obtain rfl := Option.some.inj hg
      exact hparent
  · rintro ⟨hcurrent, hnew, r, hr, hown, hrest⟩
    refine ⟨?_, List.forall_mem_cons.mpr ⟨⟨r, hr, hown⟩, hrest.recorded⟩, ?_,
      List.nodup_cons.mpr ⟨hnew, hrest.nodup⟩⟩
    · intro g hg
      obtain rfl := Option.some.inj hg
      exact hcurrent
    · cases rest with
      | nil => exact .singleton hash
      | cons parent rest =>
        exact List.isChain_cons_cons.mpr
          ⟨⟨r, hr, hown, hrest.first parent rfl⟩, hrest.parents⟩

/-- A link with the fields of a hash's record. -/
def Carries (s : Store) (hash : String) (link : ProvenanceLink) : Prop :=
  ∃ r ∈ s.images, r.imageHash = hash ∧ link = linkOf r

/-- A lineage that goes on from hashes that were met, within the depth. -/
structure Ahead (s : Store) (maxDepth : Number) (met : List String) (current : Option String)
    (hashes : List String) : Prop where
  lineage : s.Lineage current hashes
  fresh : ∀ hash ∈ hashes, hash ∉ met
  depth : maxDepth.Allows (met.length + hashes.length)

theorem ahead_cons : s.Ahead maxDepth met current (hash :: rest) ↔
    current = some hash ∧ hash ∉ met ∧
      ∃ r ∈ s.images, r.imageHash = hash ∧
        s.Ahead maxDepth (hash :: met) r.parentImageHash rest := by
  have hlength : met.length + (hash :: rest).length = (hash :: met).length + rest.length := by
    simp only [List.length_cons]
    omega
  constructor
  · intro h
    obtain ⟨hcurrent, hnew, r, hr, hown, hrest⟩ := lineage_cons.mp h.lineage
    obtain ⟨hfirst, hfresh⟩ := List.forall_mem_cons.mp h.fresh
    refine ⟨hcurrent, hfirst, r, hr, hown, hrest, fun g hg => ?_, hlength ▸ h.depth⟩
    intro hmem
    rcases List.mem_cons.mp hmem with rfl | hmet
    · exact hnew hg
    · exact hfresh g hg hmet
  · rintro ⟨hcurrent, hfirst, r, hr, hown, h⟩
    have hnew : hash ∉ rest := fun hmem => h.fresh hash hmem List.mem_cons_self
    refine ⟨lineage_cons.mpr ⟨hcurrent, hnew, r, hr, hown, h.lineage⟩, ?_, hlength ▸ h.depth⟩
    refine List.forall_mem_cons.mpr ⟨hfirst, fun g hg hmem => ?_⟩
    exact h.fresh g hg (List.mem_cons_of_mem hash hmem)

/-- Nothing is ahead of a hash that was met, or where the depth is used up. -/
theorem not_ahead_of_end
    (hend : hash ∈ met ∨ ¬ Number.lt (Number.ofNat met.length) maxDepth = true) (g : String)
    (rest : List String) : ¬ s.Ahead maxDepth met (some hash) (g :: rest) := by
  intro hahead
  obtain ⟨hfirst, hnew, r, -, -, hrest⟩ := ahead_cons.mp hahead
  obtain rfl := Option.some.inj hfirst
  refine hend.elim hnew fun hlast => hlast ?_
  exact hrest.depth met.length (by simp only [List.length_cons]; omega)

/-- The longest lineage that goes on from hashes that were met, and links to its records. -/
structure Longest (s : Store) (maxDepth : Number) (met : List String) (current : Option String)
    (hashes : List String) (links : List ProvenanceLink) : Prop where
  ahead : s.Ahead maxDepth met current hashes
  longest : ∀ other, s.Ahead maxDepth met current other → other <+: hashes
  links : List.Forall₂ s.Carries hashes links

theorem longest_nil (hdepth : maxDepth.Allows met.length)
    (hnone : ∀ g rest, ¬ s.Ahead maxDepth met current (g :: rest)) :
    s.Longest maxDepth met current [] [] := by
  refine ⟨⟨lineage_nil current, nofun, hdepth⟩, fun other hother => ?_, .nil⟩
  cases other with
  | nil => exact List.prefix_rfl
  | cons g rest => exact absurd hother (hnone g rest)

/-- What lookups count on: hashes and parents are normal forms, and each hash has one record. -/
structure Indexed (s : Store) : Prop where
  nodup : (s.images.map (·.imageHash)).Nodup
  normal : ∀ r ∈ s.images, HashText.normalize? r.imageHash = some r.imageHash
  parents : ∀ r ∈ s.images, ∀ parent ∈ r.parentImageHash,
    HashText.normalize? parent = some parent

theorem Sound.indexed (h : s.Sound) : s.Indexed := by
  obtain ⟨entries, hrecorded⟩ := h.recorded
  refine ⟨hrecorded.nodup_imageHash, fun r hr => ?_, fun r hr parent hparent => ?_⟩
  · obtain ⟨e, -, hmem⟩ := hrecorded.exists_entry hr
    have hhash := Entry.imageHash_mem_hashes hmem
    exact (HashText.normalize?_self_iff _).mpr (Entry.lowercase_of_mem_hashes hhash)
  · obtain ⟨e, -, hmem⟩ := hrecorded.exists_entry hr
    obtain ⟨i, hi, rfl⟩ := List.mem_mapIdx.mp hmem
    obtain ⟨given, -, hgiven⟩ := Option.bind_eq_some_iff.mp hparent
    exact HashText.normalize?_of_normalize? hgiven

namespace Indexed

theorem eq_of_hash (h : s.Indexed) {r r' : ImageRecord} (hr : r ∈ s.images) (hr' : r' ∈ s.images)
    (heq : r.imageHash = r'.imageHash) : r = r' :=
  List.inj_on_of_nodup_map h.nodup hr hr' heq

theorem image?_eq_some (h : s.Indexed) (hnormal : HashText.normalize? hash = some hash)
    {r : ImageRecord} : s.image? hash = some r ↔ r ∈ s.images ∧ r.imageHash = hash := by
  rw [image?, hnormal]
  constructor
  · intro hfind
    exact ⟨List.mem_of_find?_eq_some hfind, by simpa using List.find?_some hfind⟩
  · rintro ⟨hr, rfl⟩
    exact find?_of_nodup (k := (·.imageHash)) h.nodup hr

/-- The longest lineage goes on with the parent of a record that was not met yet. -/
theorem longest_cons (h : s.Indexed) (hnew : hash ∉ met) {r : ImageRecord} (hr : r ∈ s.images)
    (hown : r.imageHash = hash) {links : List ProvenanceLink}
    (hrest : s.Longest maxDepth (hash :: met) r.parentImageHash hashes links) :
    s.Longest maxDepth met (some hash) (hash :: hashes) (linkOf r :: links) where
  ahead := ahead_cons.mpr ⟨rfl, hnew, r, hr, hown, hrest.ahead⟩
  longest := by
    intro other hother
    cases other with
    | nil => exact List.nil_prefix
    | cons g rest =>
      obtain ⟨hfirst, -, r', hr', hown', hahead⟩ := ahead_cons.mp hother
      obtain rfl := Option.some.inj hfirst
      obtain rfl := h.eq_of_hash hr hr' (hown.trans hown'.symm)
      exact List.prefix_cons_inj _ |>.mpr (hrest.longest rest hahead)
  links := .cons ⟨r, hr, hown, rfl⟩ hrest.links

/-- Following parents gives the records of the longest lineage ahead. The number of records bounds
the hashes that can be met. -/
theorem exists_longest (h : s.Indexed) {steps : Nat} (hmet : met.Nodup)
    (hknown : ∀ g ∈ met, ∃ r ∈ s.images, r.imageHash = g)
    (hsteps : s.images.length < met.length + steps)
    (hcurrent : ∀ g ∈ current, HashText.normalize? g = some g)
    (hdepth : maxDepth.Allows met.length) :
    ∃ hashes, s.Longest maxDepth met current hashes (s.follow maxDepth steps met current) := by
  induction steps generalizing met current with
  | zero =>
    have hsub : met ⊆ s.images.map (·.imageHash) := fun g hg => List.mem_map.mpr (hknown g hg)
    have hlength := (List.subperm_of_subset hmet hsub).length_le
    rw [List.length_map] at hlength
    omega
  | succ steps ih =>
    cases current with
    | none =>
      refine ⟨[], longest_nil hdepth fun g rest hahead => ?_⟩
      cases (ahead_cons.mp hahead).1
    | some hash =>
      by_cases hend : hash ∈ met ∨ ¬ Number.lt (Number.ofNat met.length) maxDepth = true
      · rw [follow, if_pos (by simpa using hend)]
        exact ⟨[], longest_nil hdepth (not_ahead_of_end hend)⟩
      · obtain ⟨hnew, hlast⟩ := not_or.mp hend
        rw [not_not] at hlast
        rw [follow, if_neg (by simpa using ⟨hnew, hlast⟩)]
        cases himage : s.image? hash with
        | none =>
          refine ⟨[], longest_nil hdepth fun g rest hahead => ?_⟩
          obtain ⟨hfirst, -, r, hr, hown, -⟩ := ahead_cons.mp hahead
          obtain rfl := Option.some.inj hfirst
          rw [(h.image?_eq_some (hcurrent hash rfl)).mpr ⟨hr, hown⟩] at himage
          cases himage
        | some r =>
          obtain ⟨hr, hown⟩ := (h.image?_eq_some (hcurrent hash rfl)).mp himage
          have hknown' : ∀ g ∈ hash :: met, ∃ r ∈ s.images, r.imageHash = g :=
            List.forall_mem_cons.mpr ⟨⟨r, hr, hown⟩, hknown⟩
          have hsteps' : s.images.length < (hash :: met).length + steps := by
            rw [List.length_cons]
            omega
          obtain ⟨hashes, hrest⟩ := ih (List.nodup_cons.mpr ⟨hnew, hmet⟩) hknown' hsteps'
            (h.parents r hr) (Number.allows_succ.mpr ⟨hdepth, hlast⟩)
          exact ⟨hash :: hashes, h.longest_cons hnew hr hown hrest⟩

/-- A malformed text names nothing in any spelling. -/
theorem lineage_lower (h : s.Indexed) {input : String} :
    s.Lineage (some (HashText.lower input)) hashes ↔
      s.Lineage (HashText.normalize? input) hashes := by
  by_cases hwell : HashText.wellFormed input = true
  · rw [HashText.normalize?, if_pos hwell]
  · cases hashes with
    | nil => exact iff_of_true (lineage_nil _) (lineage_nil _)
    | cons hash rest =>
      refine iff_of_false (fun hlineage => hwell ?_) fun hlineage => ?_
      · obtain ⟨hfirst, -, r, hr, rfl, -⟩ := lineage_cons.mp hlineage
        have hnormal := h.normal r hr
        rw [← Option.some.inj hfirst, HashText.normalize?_lower] at hnormal
        exact (HashText.normalize?_eq_some.mp hnormal).1
      · have hfirst := (lineage_cons.mp hlineage).1
        rw [HashText.normalize?, if_neg hwell] at hfirst
        cases hfirst

theorem ahead_start (h : s.Indexed) {input : String} :
    s.Ahead maxDepth [] (HashText.normalize? input) hashes ↔
      s.Lineage (some (HashText.lower input)) hashes ∧ maxDepth.Allows hashes.length := by
  rw [h.lineage_lower]
  constructor
  · intro hahead
    have hdepth := hahead.depth
    rw [List.length_nil, Nat.zero_add] at hdepth
    exact ⟨hahead.lineage, hdepth⟩
  · rintro ⟨hlineage, hdepth⟩
    exact ⟨hlineage, fun hash _ => List.not_mem_nil, by simpa using hdepth⟩

/-- The longest lineage from a text, and its links whatever number of steps is allowed beyond that
of the records. -/
theorem exists_longest_from (h : s.Indexed) (input : String) (maxDepth : Number) (more : Nat) :
    ∃ hashes, s.Longest maxDepth [] (HashText.normalize? input) hashes
      (s.follow maxDepth (s.images.length + 1 + more) [] (HashText.normalize? input)) := by
  refine h.exists_longest List.nodup_nil nofun ?_ (fun g hg => ?_) nofun
  · simp only [List.length_nil]
    omega
  · exact HashText.normalize?_of_normalize? hg

theorem eq_of_links (h : s.Indexed) {links links' : List ProvenanceLink}
    (hl : List.Forall₂ s.Carries hashes links) (hl' : List.Forall₂ s.Carries hashes links') :
    links = links' := by
  induction hl generalizing links' with
  | nil =>
    cases hl'
    rfl
  | cons hfirst _ ih =>
    cases hl' with
    | cons hfirst' hrest =>
      obtain ⟨r, hr, hown, rfl⟩ := hfirst
      obtain ⟨r', hr', hown', rfl⟩ := hfirst'
      rw [h.eq_of_hash hr hr' (hown.trans hown'.symm), ih hrest]

/-- The longest lineage has its links for itself. -/
theorem longest_unique (h : s.Indexed) {hashes' : List String} {links links' : List ProvenanceLink}
    (hl : s.Longest maxDepth met current hashes links)
    (hl' : s.Longest maxDepth met current hashes' links') : links = links' := by
  have hsame : hashes' = hashes := (hl.longest hashes' hl'.ahead).eq_of_length_le
    (hl'.longest hashes hl.ahead).length_le
  exact h.eq_of_links hl.links (hsame ▸ hl'.links)

end Indexed

/-- Some link is given when the hash is known and there may be one. -/
theorem Longest.links_eq_nil_iff {input : String} {links : List ProvenanceLink}
    (h : s.Longest maxDepth [] (HashText.normalize? input) hashes links)
    (hdepth : Number.le 0 maxDepth = true) :
    links = [] ↔ HashText.wellFormed input = false ∨
      (∀ r ∈ s.images, r.imageHash ≠ HashText.lower input) ∨ maxDepth = 0 := by
  rw [← List.length_eq_zero_iff, ← h.links.length_eq, List.length_eq_zero_iff]
  constructor
  · intro hnil
    by_contra hsome
    obtain ⟨hwell, hknown, hpositive⟩ : HashText.wellFormed input = true ∧
        (∃ r ∈ s.images, r.imageHash = HashText.lower input) ∧ maxDepth ≠ 0 := by
      simpa using hsome
    obtain ⟨r, hr, hown⟩ := hknown
    have hone : s.Ahead maxDepth [] (HashText.normalize? input) [HashText.lower input] := by
      refine ahead_cons.mpr ⟨if_pos hwell, List.not_mem_nil, r, hr, hown, lineage_nil _, nofun, ?_⟩
      exact Number.allows_succ.mpr ⟨nofun, Number.lt_of_le_of_ne hdepth hpositive⟩
    have hprefix := h.longest _ hone
    rw [hnil, List.prefix_nil] at hprefix
    cases hprefix
  · intro hnone
    cases hashes with
    | nil => rfl
    | cons hash rest =>
      obtain ⟨hfirst, -, r, hr, hown, hrest⟩ := ahead_cons.mp h.ahead
      obtain ⟨hwell, hlower⟩ := HashText.normalize?_eq_some.mp hfirst
      rcases hnone with hmalformed | hunknown | rfl
      · rw [hwell] at hmalformed
        cases hmalformed
      · exact absurd (hown.trans hlower.symm) (hunknown r hr)
      · have hzero := hrest.depth 0 (by simp only [List.length_cons]; omega)
        exact absurd hzero (by decide)

end Store

namespace Node

/-- Provenance on every ledger that is reached comes to an end, however many steps it may take. It
gives the records of the longest lineage from the hash within the depth, which every other such
lineage begins. It is empty exactly for a malformed text, for an unknown hash and at depth zero.
Up to the next whole number, the depth is the number of links there may be. -/
theorem provenance_longest (start n : Node) (hempty : start.store = Store.empty)
    (hreach : start.ReachableFrom n) (input : String) (maxDepth : Number)
    (hdepth : Number.le 0 maxDepth = true) :
    (∀ more, n.store.follow maxDepth (n.store.images.length + 1 + more) []
      (HashText.normalize? input) = n.store.provenance input maxDepth) ∧
    (∃ hashes, n.store.Lineage (some (HashText.lower input)) hashes ∧
      maxDepth.Allows hashes.length ∧
      (∀ other, n.store.Lineage (some (HashText.lower input)) other →
        maxDepth.Allows other.length → other <+: hashes) ∧
      List.Forall₂ n.store.Carries hashes (n.store.provenance input maxDepth)) ∧
    (n.store.provenance input maxDepth = [] ↔ HashText.wellFormed input = false ∨
      (∀ r ∈ n.store.images, r.imageHash ≠ HashText.lower input) ∨ maxDepth = 0) ∧
    ∀ count ≤ Number.wholeLimit,
      (maxDepth.Allows count ↔ ∀ q, maxDepth = .finite q → count ≤ ⌈q⌉₊) := by
  have hs := (hreach.sound hempty).indexed
  have hprovenance : ∃ hashes, n.store.Longest maxDepth [] (HashText.normalize? input) hashes
      (n.store.provenance input maxDepth) := hs.exists_longest_from input maxDepth 0
  obtain ⟨hashes, hlongest⟩ := hprovenance
  obtain ⟨hlineage, hallows⟩ := hs.ahead_start.mp hlongest.ahead
  refine ⟨fun more => ?_, ⟨hashes, hlineage, hallows, fun other hother hcount => ?_,
    hlongest.links⟩, hlongest.links_eq_nil_iff hdepth,
    fun count => Number.allows_iff_le_ceil hdepth⟩
  · obtain ⟨hashes', hlongest'⟩ := hs.exists_longest_from input maxDepth more
    exact hs.longest_unique hlongest' hlongest
  · exact hlongest.longest other (hs.ahead_start.mpr ⟨hother, hcount⟩)

/-- From the second hash, in capitals, there is a way to the first one. -/
theorem provenance_longest_derived : ∃ hashes,
    [String.ofList (List.replicate 64 'b'), String.ofList (List.replicate 64 'a')] <+: hashes ∧
      List.Forall₂ derived.store.Carries hashes
        (derived.store.provenance (String.ofList (List.replicate 64 'B')) 10) := by
  obtain ⟨-, ⟨hashes, -, -, hlongest, hlinks⟩, -, -⟩ :=
    provenance_longest lone derived rfl reachableFrom_lone_derived
      (String.ofList (List.replicate 64 'B')) 10 (by decide)
  have hway : derived.store.Lineage
      (some (HashText.lower (String.ofList (List.replicate 64 'B'))))
      [String.ofList (List.replicate 64 'b'), String.ofList (List.replicate 64 'a')] := by
    constructor <;> decide +kernel
  exact ⟨hashes, hlongest _ hway (by unfold Number.Allows; decide), hlinks⟩

/-- At a depth of one and a half there are two links. -/
theorem provenance_exceeds_depth : lone.store = Store.empty ∧ ReachableFrom lone derived ∧
    Number.lt (.finite (3 / 2)) (Number.ofNat (derived.store.provenance
      (String.ofList (List.replicate 64 'B')) (.finite (3 / 2))).length) = true := by
  refine ⟨rfl, reachableFrom_lone_derived, ?_⟩
  decide +kernel

end Node

end ImageLedger
