import ImageLedger.Settings
import ImageLedger.Proofs.Number.Rounding
import ImageLedger.Proofs.Text.Distinct
import Mathlib.Data.List.DropRight

namespace ImageLedger

namespace Text

theorem dropWhile_front {α : Type} {p : α → Bool} {front whole : List α}
    (h : front <+: whole) (hwhole : whole.dropWhile p = whole) : front.dropWhile p = front := by
  rw [List.dropWhile_eq_self_iff] at hwhole ⊢
  intro hpos
  rw [h.getElem hpos]
  exact hwhole (hpos.trans_le h.length_le)

theorem trimChars_trimChars (cs : List Char) : trimChars (trimChars cs) = trimChars cs := by
  change (((cs.dropWhile isBlank).rdropWhile isBlank).dropWhile isBlank).rdropWhile isBlank = _
  rw [dropWhile_front (List.rdropWhile_prefix _ _) (List.dropWhile_idempotent _ _)]
  exact List.rdropWhile_idempotent _ _

theorem trim_of_mem_splitList {s piece : String} (h : piece ∈ splitList s) :
    trim piece = piece ∧ piece ≠ "" := by
  obtain ⟨hmem, hne⟩ := List.mem_filter.mp h
  obtain ⟨chars, -, rfl⟩ := List.mem_map.mp hmem
  refine ⟨?_, by simpa using hne⟩
  rw [trim, String.toList_ofList, trimChars_trimChars]

end Text

namespace Number

/-- A text of digits stands for a whole number, unless it is too large for any. -/
theorem isInteger_ofNat_of_isFinite {n : Nat} (h : (ofNat n).isFinite = true) :
    (ofNat n).isInteger = true := by
  rcases Nat.lt_or_ge wholeLimit n with hbig | hsmall
  · obtain ⟨m, -, -, hround⟩ := exists_roundMagnitude_eq hbig
    rw [ofNat_of_lt hbig, hround] at h ⊢
    split_ifs at h ⊢
    · cases h
    · rw [isInteger, toInt?, if_pos (Rat.den_natCast m)]
      rfl
  · exact isInteger_ofNat hsmall

theorem isFinite_of_isInteger {x : Number} (h : x.isInteger = true) : x.isFinite = true := by
  cases x with
  | finite q => rfl
  | infinite negative => cases h
  | nan => cases h

theorem isFinite_neg (x : Number) : x.neg.isFinite = x.isFinite := by
  cases x <;> rfl

theorem isInteger_neg (x : Number) : x.neg.isInteger = x.isInteger := by
  cases x with
  | finite q =>
    rw [neg, isInteger, isInteger, toInt?, toInt?, Rat.den_neg_eq_den]
    split_ifs <;> rfl
  | infinite negative => rfl
  | nan => rfl

end Number

namespace Settings

theorem exists_of_leadingInteger? {s : String} {x : Number} (h : leadingInteger? s = some x) :
    ∃ n, x = Number.ofNat n ∨ x = (Number.ofNat n).neg := by
  unfold leadingInteger? at h
  dsimp only at h
  split at h <;> simp only [if_true, Bool.false_eq_true, if_false] at h <;> split_ifs at h
  · exact ⟨_, Or.inr (Option.some.inj h).symm⟩
  · exact ⟨_, Or.inl (Option.some.inj h).symm⟩
  · exact ⟨_, Or.inl (Option.some.inj h).symm⟩

theorem ne_nan_of_leadingInteger? {s : String} {x : Number} (h : leadingInteger? s = some x) :
    x ≠ .nan := by
  obtain ⟨n, rfl | rfl⟩ := exists_of_leadingInteger? h
  · exact Number.ofNat_ne_nan n
  · have hne := Number.ofNat_ne_nan n
    cases hn : Number.ofNat n <;> simp_all [Number.neg]

theorem isInteger_iff_of_leadingInteger? {s : String} {x : Number}
    (h : leadingInteger? s = some x) : x.isInteger = true ↔ x.isFinite = true := by
  refine ⟨Number.isFinite_of_isInteger, fun hfinite => ?_⟩
  obtain ⟨n, rfl | rfl⟩ := exists_of_leadingInteger? h
  · exact Number.isInteger_ofNat_of_isFinite hfinite
  · rw [Number.isFinite_neg] at hfinite
    rw [Number.isInteger_neg]
    exact Number.isInteger_ofNat_of_isFinite hfinite

theorem leadingInteger?_of_isBlankText {s : String} (h : Text.isBlankText s = true) :
    leadingInteger? s = none := by
  have hstart : s.toList.dropWhile Text.isBlank = [] := by
    rw [List.dropWhile_eq_nil_iff]
    exact List.all_eq_true.mp h
  simp [leadingInteger?, hstart]

variable {α β : Type}

/-- A reading that keeps the problems noted before it, and whose value is as it should be when it
notes none. -/
def Yields (m : Reading α) (P : α → Prop) : Prop :=
  ∀ noted, ∃ found, (m.run noted).2 = noted ++ found ∧ (found = [] → P (m.run noted).1)

namespace Yields

variable {m : Reading α} {f : α → Reading β} {P : α → Prop} {Q : β → Prop}

theorem pure {a : α} (h : P a) : Yields (pure a) P :=
  fun noted => ⟨[], (List.append_nil noted).symm, fun _ => h⟩

theorem note (problem : Problem) (P : Unit → Prop) : Yields (note problem) P :=
  fun _ => ⟨[problem], rfl, nofun⟩

/-- What follows a reading may count on its value, but has to keep the problems noted anyhow. -/
theorem bind (hm : Yields m P) (hf : ∀ a, Yields (f a) fun b => P a → Q b) :
    Yields (m >>= f) Q := by
  intro noted
  obtain ⟨first, hfirst, hP⟩ := hm noted
  obtain ⟨rest, hrest, hQ⟩ := hf (m.run noted).1 (m.run noted).2
  refine ⟨first ++ rest, ?_, fun hnone => ?_⟩
  · rw [StateT.run_bind]
    exact hrest.trans (by rw [hfirst, List.append_assoc])
  · obtain ⟨hfirst, hrest⟩ := List.append_eq_nil_iff.mp hnone
    exact hQ hrest (hP hfirst)

theorem imp {P' : α → Prop} (hm : Yields m P) (h : ∀ a, P a → P' a) : Yields m P' := by
  intro noted
  obtain ⟨found, hfound, hP⟩ := hm noted
  exact ⟨found, hfound, fun hnone => h _ (hP hnone)⟩

theorem map (hm : Yields m P) (g : α → β) : Yields (g <$> m) fun b => ∃ a, b = g a ∧ P a := by
  intro noted
  obtain ⟨found, hfound, hP⟩ := hm noted
  exact ⟨found, hfound, fun hnone => ⟨_, rfl, hP hnone⟩⟩

/-- A reading that notes a problem promises nothing. -/
theorem noted {problem : Problem} {a : α} :
    Yields (do Settings.note problem; Pure.pure a) P :=
  (note problem fun _ => False).bind fun _ => pure nofun

/-- A check that fails is noted before the reading goes on. -/
theorem check {c : Prop} [Decidable c] {problem : Problem} {next : Unit → Reading β}
    (h : Yields (next ()) fun b => ¬ c → Q b) :
    Yields (if c then Settings.note problem >>= next else next ()) Q := by
  split_ifs with hc
  · exact (note problem fun _ => False).bind fun _ => h.imp fun _ _ hfalse => hfalse.elim
  · exact h.imp fun _ hb => hb hc

end Yields

variable {env : Environment} {key : String} {fallback least x : Number}

/-- Where a number comes from that was read without a problem. -/
inductive Chosen (env : Environment) (key : String) (fallback least : Number) : Number → Prop
  | fallback : (∀ value, env key = some value → Text.isBlankText value = true) →
      Chosen env key fallback least fallback
  | found {value : String} {x : Number} : env key = some value →
      Text.isBlankText value = false → leadingInteger? value = some x →
      Number.lt x least = false → Chosen env key fallback least x

namespace Chosen

theorem atLeast (h : Chosen env key fallback least x) (hleast : least ≠ .nan)
    (hfallback : Number.le least fallback = true) : Number.le least x = true := by
  cases h with
  | fallback _ => exact hfallback
  | found _ _ hvalue hlt =>
    rcases Number.le_or_lt hleast (ne_nan_of_leadingInteger? hvalue) with hle | hbelow
    · exact hle
    · rw [hlt] at hbelow
      cases hbelow

/-- A number that was read is whole unless its text stands for more than any number. -/
theorem isInteger_iff (h : Chosen env key fallback least x)
    (hfallback : fallback.isInteger = true) : x.isInteger = true ↔
      ∀ value ∈ env key, ∀ y ∈ leadingInteger? value, y.isFinite = true := by
  cases h with
  | fallback hblank =>
    refine iff_of_true hfallback fun value hvalue y hy => ?_
    rw [leadingInteger?_of_isBlankText (hblank value hvalue)] at hy
    cases hy
  | found henv _ hread _ =>
    rw [isInteger_iff_of_leadingInteger? hread]
    constructor
    · intro hfinite value hvalue y hy
      obtain rfl := Option.some.inj (henv.symm.trans hvalue)
      obtain rfl := Option.some.inj (hread.symm.trans hy)
      exact hfinite
    · exact fun hall => hall _ henv _ hread

end Chosen

theorem number_yields (env : Environment) (key : String) (fallback least : Number) :
    Yields (number env key fallback least) (Chosen env key fallback least) := by
  unfold number
  cases henv : env key with
  | none => exact .pure (.fallback (by simp [henv]))
  | some value =>
    dsimp only
    split_ifs with hblank
    · refine .pure (.fallback fun other hother => ?_)
      obtain rfl := Option.some.inj (henv.symm.trans hother)
      exact hblank
    · cases hread : leadingInteger? value with
      | none => exact .noted
      | some found =>
        refine .check (.pure fun hlt => ?_)
        exact .found henv (Bool.eq_false_of_not_eq_true hblank) hread
          (Bool.eq_false_of_not_eq_true hlt)

theorem required_yields (env : Environment) (key : String) :
    Yields (required env key) fun text => env key = some text ∧ Text.isBlankText text = false := by
  unfold required
  cases henv : env key with
  | none => exact .noted
  | some value =>
    dsimp only
    split_ifs with hblank
    · exact .noted
    · exact .pure ⟨rfl, Bool.eq_false_of_not_eq_true hblank⟩

theorem boolean_yields (env : Environment) (key : String) (fallback : Bool) :
    Yields (boolean env key fallback) fun _ => True := by
  unfold boolean
  cases env key with
  | none => exact .pure trivial
  | some value =>
    dsimp only
    split_ifs
    · exact .pure trivial
    · exact .pure trivial
    · exact .pure trivial
    · exact .noted

theorem readStage_yields (env : Environment) : Yields (readStage env) fun _ => True := by
  unfold readStage
  dsimp only
  split_ifs
  · exact .pure trivial
  · exact .pure trivial
  · exact .pure trivial
  · exact .noted

theorem readMode_yields (env : Environment) : Yields (readMode env) fun _ => True := by
  unfold readMode
  dsimp only
  split_ifs
  · exact .pure trivial
  · exact .pure trivial
  · exact .noted

/-- A number of the settings that must be positive. -/
structure Count where
  key : String
  fallback : Number
  value : Number

def counts (s : Settings) : List Count := [
  ⟨"POA_ROUND_TIMEOUT_MS", 10000, s.poaRoundTimeoutMs⟩,
  ⟨"BATCH_SIZE_MIN", 1, s.batchSizeMin⟩,
  ⟨"BATCH_SIZE_MAX", 1000, s.batchSizeMax⟩,
  ⟨"BATCH_INTERVAL_SECONDS", 60, s.batchIntervalSeconds⟩,
  ⟨"AUTHORITY_REQUEST_TIMEOUT_MS", 5000, s.authorityRequestTimeoutMs⟩,
  ⟨"VALIDATION_INTERVAL_SECONDS", 30, s.validationIntervalSeconds⟩,
  ⟨"VALIDATION_MAX_ATTEMPTS", 5, s.validationMaxAttempts⟩,
  ⟨"VALIDATION_CACHE_MAX_SIZE", 10000, s.validationCacheMaxSize⟩,
  ⟨"VALIDATION_CACHE_TTL_SECONDS", 3600, s.validationCacheTtlSeconds⟩]

/-- The texts that must be there. -/
def texts (s : Settings) : List (String × String) := [
  ("DATABASE_URL", s.databaseUrl), ("ADMIN_PASSWORD", s.adminPassword),
  ("AUTHORITY_VALIDATION_URL", s.authorityValidationUrl)]

/-- Where the settings come from that were read without a problem. -/
structure ReadFrom (env : Environment) (s : Settings) : Prop where
  port : Chosen env "PORT" 8545 0 s.listenPort
  counts : ∀ c ∈ s.counts, Chosen env c.key c.fallback 1 c.value
  genesis : (textOr env "GENESIS_TIMESTAMP" "" = "" ∧ s.genesisTimestamp = none) ∨
    textOr env "GENESIS_TIMESTAMP" "" ≠ "" ∧
      ∃ x, s.genesisTimestamp = some x ∧ Chosen env "GENESIS_TIMESTAMP" 0 1 x
  sizes : Number.lt s.batchSizeMax s.batchSizeMin = false
  texts : ∀ t ∈ s.texts, env t.1 = some t.2 ∧ Text.isBlankText t.2 = false
  validators : s.validatorNodes = Text.distinct (listOf env "VALIDATOR_NODES")
  known : s.consensusMode = .poa → s.validatorNodes ≠ []
  submitters : s.authorizedSubmitters =
    Settings.submitters s.nodeId (listOf env "AUTHORIZED_SUBMITTERS")

/-- The time of the genesis block is read only when it is given. -/
theorem genesis_yields (env : Environment) {next : Option Number → Reading β} {Q : β → Prop}
    (h : ∀ time, Yields (next time) fun b =>
      ((textOr env "GENESIS_TIMESTAMP" "" = "" ∧ time = none) ∨
        textOr env "GENESIS_TIMESTAMP" "" ≠ "" ∧
          ∃ x, time = some x ∧ Chosen env "GENESIS_TIMESTAMP" 0 1 x) → Q b) :
    Yields (if textOr env "GENESIS_TIMESTAMP" "" = "" then do
        let time ← pure none
        next time
      else do
        let time ← some <$> number env "GENESIS_TIMESTAMP" 0 1
        next time) Q := by
  split_ifs with hgiven
  · exact (Yields.pure (P := (· = none)) rfl).bind fun time =>
      (h time).imp fun _ hb htime => hb (Or.inl ⟨hgiven, htime⟩)
  · exact ((number_yields _ _ _ _).map some).bind fun time =>
      (h time).imp fun _ hb htime => hb (Or.inr ⟨hgiven, htime⟩)

theorem read_yields (env : Environment) : Yields (read env) (ReadFrom env) := by
  unfold Settings.read
  refine (readStage_yields env).bind fun stage => ?_
  refine (readMode_yields env).bind fun mode => ?_
  extract_lets validatorNodes nodeId
  refine Yields.check ?_
  refine genesis_yields env fun genesisTimestamp => ?_
  refine (number_yields _ _ _ _).bind fun listenPort => ?_
  refine (required_yields _ _).bind fun databaseUrl => ?_
  refine (required_yields _ _).bind fun adminPassword => ?_
  refine (number_yields _ _ _ _).bind fun poaRoundTimeoutMs => ?_
  refine (number_yields _ _ _ _).bind fun batchSizeMin => ?_
  refine (number_yields _ _ _ _).bind fun batchSizeMax => ?_
  refine (number_yields _ _ _ _).bind fun batchIntervalSeconds => ?_
  refine (required_yields _ _).bind fun authorityValidationUrl => ?_
  refine (number_yields _ _ _ _).bind fun authorityRequestTimeoutMs => ?_
  refine (number_yields _ _ _ _).bind fun validationIntervalSeconds => ?_
  refine (number_yields _ _ _ _).bind fun validationMaxAttempts => ?_
  refine (number_yields _ _ _ _).bind fun validationCacheMaxSize => ?_
  refine (number_yields _ _ _ _).bind fun validationCacheTtlSeconds => ?_
  refine (boolean_yields _ _ _).bind fun embeddedWorkers => ?_
  refine Yields.check ?_
  refine Yields.pure fun hsizes _ hcacheTtl hcacheSize hattempts hvalidation htimeout hurl hinterval
    hmax hmin hround hpassword hdatabase hport hgenesis hknown _ _ => ?_
  exact {
    port := hport
    counts := by
      simp only [counts, List.forall_mem_cons]
      exact ⟨hround, hmin, hmax, hinterval, htimeout, hvalidation, hattempts, hcacheSize, hcacheTtl,
        nofun⟩
    genesis := hgenesis
    sizes := Bool.eq_false_of_not_eq_true hsizes
    texts := by
      simp only [texts, List.forall_mem_cons]
      exact ⟨hdatabase, hpassword, hurl, nofun⟩
    validators := rfl
    known := fun hmode hnone => hknown ⟨hmode, hnone⟩
    submitters := rfl }

theorem readFrom_of_parse {s : Settings} (h : parse env = .ok s) : ReadFrom env s := by
  obtain ⟨found, hfound, hread⟩ := read_yields env []
  unfold parse at h
  split at h
  · next settings hrun =>
    obtain rfl := Except.ok.inj h
    rw [hrun] at hfound hread
    exact hread (by simpa using hfound.symm)
  · cases h

/-- What settings are always like: numbers are in range, sizes do not cross, what must be given is
given, and the lists are in order. -/
structure Checked (s : Settings) : Prop where
  port : Number.le 0 s.listenPort = true
  counts : ∀ c ∈ s.counts, Number.le 1 c.value = true
  sizes : Number.le s.batchSizeMin s.batchSizeMax = true
  texts : ∀ t ∈ s.texts, Text.isBlankText t.2 = false
  validators : (∀ node ∈ s.validatorNodes, Text.trim node = node ∧ node ≠ "") ∧
    s.validatorNodes.Nodup
  known : s.consensusMode = .poa → s.validatorNodes ≠ []
  submitters : ∀ listed, s.authorizedSubmitters = some listed → s.nodeId ∈ listed

/-- Settings that can be used: every number is whole as well, and the genesis block, when it is
given a time, is given a positive one. -/
structure Usable (s : Settings) : Prop extends Checked s where
  wholePort : s.listenPort.isInteger = true
  wholeCounts : ∀ c ∈ s.counts, c.value.isInteger = true
  genesis : ∀ time, s.genesisTimestamp = some time →
    time.isInteger = true ∧ Number.le 1 time = true

def countKeys : List String := ["POA_ROUND_TIMEOUT_MS", "BATCH_SIZE_MIN", "BATCH_SIZE_MAX",
  "BATCH_INTERVAL_SECONDS", "AUTHORITY_REQUEST_TIMEOUT_MS", "VALIDATION_INTERVAL_SECONDS",
  "VALIDATION_MAX_ATTEMPTS", "VALIDATION_CACHE_MAX_SIZE", "VALIDATION_CACHE_TTL_SECONDS"]

/-- The names of all numbers. -/
def numberKeys : List String := "PORT" :: "GENESIS_TIMESTAMP" :: countKeys

theorem map_key_counts (s : Settings) : s.counts.map Count.key = countKeys := rfl

/-- No digits stand for more than the greatest number, and the genesis block is not given a time
that is blank. -/
structure Legible (env : Environment) : Prop where
  finite : ∀ key ∈ numberKeys, ∀ value ∈ env key, ∀ x ∈ leadingInteger? value, x.isFinite = true
  genesis : ∀ value ∈ env "GENESIS_TIMESTAMP", Text.isBlankText value = true → value = ""

instance (env : Environment) : Decidable (Legible env) :=
  decidable_of_iff ((∀ key ∈ numberKeys, ∀ value ∈ env key, ∀ x ∈ leadingInteger? value,
      x.isFinite = true) ∧
    ∀ value ∈ env "GENESIS_TIMESTAMP", Text.isBlankText value = true → value = "")
    ⟨fun h => ⟨h.1, h.2⟩, fun h => ⟨h.finite, h.genesis⟩⟩

theorem textOr_empty : textOr env key "" = "" ↔ ∀ value, env key = some value → value = "" := by
  unfold textOr
  cases henv : env key <;> simp

theorem submitters_contain (nodeId : String) (names : List String) :
    ∀ listed, submitters nodeId names = some listed → nodeId ∈ listed := by
  unfold submitters
  split_ifs with hempty hmem
  · exact nofun
  · intro listed hlisted
    obtain rfl := Option.some.inj hlisted
    exact hmem
  · intro listed hlisted
    obtain rfl := Option.some.inj hlisted
    exact List.mem_append_right _ (List.mem_singleton_self _)

theorem fallbacks (s : Settings) : ∀ c ∈ s.counts,
    Number.le 1 c.fallback = true ∧ c.fallback.isInteger = true := by
  simp only [counts, List.forall_mem_cons]
  decide +kernel

namespace ReadFrom

variable {s : Settings}

theorem atLeastOne (h : ReadFrom env s) : ∀ c ∈ s.counts, Number.le 1 c.value = true :=
  fun c hc => (h.counts c hc).atLeast (by decide) (fallbacks s c hc).1

theorem checked (h : ReadFrom env s) : s.Checked where
  port := h.port.atLeast (by decide) (by decide +kernel)
  counts := h.atLeastOne
  sizes := by
    have hmin := h.atLeastOne ⟨"BATCH_SIZE_MIN", 1, s.batchSizeMin⟩ (by simp [Settings.counts])
    have hmax := h.atLeastOne ⟨"BATCH_SIZE_MAX", 1000, s.batchSizeMax⟩ (by simp [Settings.counts])
    have hcrossed : ¬ Number.lt s.batchSizeMax s.batchSizeMin = true := by
      rw [h.sizes]
      nofun
    exact (Number.le_or_lt (Number.ne_nan_of_le hmin) (Number.ne_nan_of_le hmax)).resolve_right
      hcrossed
  texts := fun t ht => (h.texts t ht).2
  validators := by
    rw [h.validators]
    exact ⟨fun node hnode => Text.trim_of_mem_splitList (Text.mem_distinct.mp hnode),
      Text.nodup_distinct _⟩
  known := h.known
  submitters := by
    rw [h.submitters]
    exact submitters_contain _ _

theorem usable (h : ReadFrom env s) (henv : Legible env) : s.Usable where
  toChecked := h.checked
  wholePort :=
    (h.port.isInteger_iff (by decide +kernel)).mpr (henv.finite _ (List.mem_cons_self ..))
  wholeCounts := by
    intro c hc
    have hkey : c.key ∈ countKeys := map_key_counts s ▸ List.mem_map_of_mem hc
    refine ((h.counts c hc).isInteger_iff (fallbacks s c hc).2).mpr (henv.finite _ ?_)
    exact List.mem_cons_of_mem _ (List.mem_cons_of_mem _ hkey)
  genesis := by
    intro time htime
    rcases h.genesis with ⟨-, hnone⟩ | ⟨hgiven, x, hx, hchosen⟩
    · cases hnone.symm.trans htime
    · obtain rfl := Option.some.inj (hx.symm.trans htime)
      refine ⟨(hchosen.isInteger_iff (by decide +kernel)).mpr
        (henv.finite _ (by simp [numberKeys])), ?_⟩
      cases hchosen with
      | fallback hblank =>
        -- a time that is given and blank would be zero
        exact absurd (textOr_empty.mpr fun value hvalue =>
          henv.genesis value hvalue (hblank value hvalue)) hgiven
      | found _ _ hread hlt =>
        refine (Number.le_or_lt (by decide) (ne_nan_of_leadingInteger? hread)).resolve_right ?_
        rw [hlt]
        nofun

theorem legible (h : ReadFrom env s) (hs : s.Usable) : Legible env where
  finite := by
    intro key hkey
    rcases List.mem_cons.mp hkey with rfl | hkey
    · exact (h.port.isInteger_iff (by decide +kernel)).mp hs.wholePort
    rcases List.mem_cons.mp hkey with rfl | hkey
    · rcases h.genesis with ⟨hempty, -⟩ | ⟨-, x, hx, hchosen⟩
      · intro value hvalue y hy
        obtain rfl := textOr_empty.mp hempty value hvalue
        cases hy
      · exact (hchosen.isInteger_iff (by decide +kernel)).mp (hs.genesis x hx).1
    · rw [← map_key_counts s] at hkey
      obtain ⟨c, hc, rfl⟩ := List.mem_map.mp hkey
      exact ((h.counts c hc).isInteger_iff (fallbacks s c hc).2).mp (hs.wholeCounts c hc)
  genesis := by
    intro value hvalue hblank
    rcases h.genesis with ⟨hempty, -⟩ | ⟨-, x, hx, hchosen⟩
    · exact textOr_empty.mp hempty value hvalue
    · cases hchosen with
      | fallback _ => exact absurd (hs.genesis 0 hx).2 (by decide +kernel)
      | found henv hnot _ _ =>
        obtain rfl := Option.some.inj (henv.symm.trans hvalue)
        cases hblank.symm.trans hnot

end ReadFrom

/-- Settings that were read are always in range and in order. They can be used exactly when no
number is given by digits beyond the greatest one, and the time of the genesis block, if it is
given, is not blank: a blank time is read as zero. -/
theorem usable_iff {s : Settings} (h : parse env = .ok s) : s.Checked ∧ (s.Usable ↔ Legible env) :=
  have hread := readFrom_of_parse h
  ⟨hread.checked, hread.legible, hread.usable⟩

/-- The environment with the given texts. -/
def given (texts : List (String × String)) : Environment := fun key => texts.lookup key

theorem exists_of_any (env : Environment) (passes : Settings → Bool)
    (h : (parse env).toOption.any passes = true) : ∃ s, parse env = .ok s ∧ passes s = true := by
  cases hparse : parse env with
  | ok s =>
    rw [hparse] at h
    exact ⟨s, rfl, h⟩
  | error problems =>
    rw [hparse] at h
    cases h

theorem usable_of_blank_port :
    let env := given [("DATABASE_URL", "postgres://ledger"), ("ADMIN_PASSWORD", "secret"),
      ("AUTHORITY_VALIDATION_URL", "https://authority/validate"), ("PORT", " "),
      ("BATCH_SIZE_MIN", "2 at least"), ("GENESIS_TIMESTAMP", ""), ("CONSENSUS_MODE", "poa"),
      ("VALIDATOR_NODES", "a, b ,,a"), ("AUTHORIZED_SUBMITTERS", "camera")]
    ∃ s, parse env = .ok s ∧
      (s.listenPort = 8545 ∧ s.batchSizeMin = 2 ∧ s.validatorNodes = ["a", "b"]) ∧ s.Usable := by
  intro env
  obtain ⟨s, hs, hvalues⟩ := exists_of_any env
    (fun s => s.listenPort = 8545 ∧ s.batchSizeMin = 2 ∧ s.validatorNodes = ["a", "b"])
    (by decide +kernel)
  exact ⟨s, hs, by simpa using hvalues, (usable_iff hs).2.mpr (by decide +kernel)⟩

/-- A blank time of the genesis block and a port of more digits than any number has: neither is
noted, and the time is zero and the port infinite. -/
theorem not_usable_of_blank_genesis :
    let env := given [("DATABASE_URL", "postgres://ledger"), ("ADMIN_PASSWORD", "secret"),
      ("AUTHORITY_VALIDATION_URL", "https://authority/validate"), ("GENESIS_TIMESTAMP", " "),
      ("PORT", String.ofList (List.replicate 309 '9'))]
    ∃ s, parse env = .ok s ∧
      (s.genesisTimestamp = some 0 ∧ s.listenPort = .infinite false) ∧ ¬ s.Usable := by
  intro env
  obtain ⟨s, hs, hvalues⟩ := exists_of_any env
    (fun s => s.genesisTimestamp = some 0 ∧ s.listenPort = .infinite false) (by decide +kernel)
  obtain ⟨hgenesis, hport⟩ := of_decide_eq_true hvalues
  refine ⟨s, hs, ⟨hgenesis, hport⟩, fun hs => ?_⟩
  exact absurd (hs.genesis 0 hgenesis).2 (by decide +kernel)

end Settings

end ImageLedger
