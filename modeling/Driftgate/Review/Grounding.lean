import Driftgate.Review.Heuristic
import Mathlib.Data.List.TakeWhile

/-!
# What a persisted review cites

The graph of a review takes the outcome of the provider through three nodes: it is validated
against its schema, it is checked that each line of evidence contains a citation of the bundle, and
it is persisted. An outcome that does not pass is replaced by the heuristic review.

A line of evidence cites by tokens `kind:index`. The check is one for substrings: it accepts a line
in which a citation of the bundle is the beginning of a longer token. So what is persisted cites
only what is in the bundle exactly when nothing in the accepted lines, or in the summaries that the
heuristic review lists, is a token from outside the bundle.
-/

namespace Driftgate.Review

open Driftgate.Schema Driftgate.Runtime Driftgate.Occurrence

/-! ### The graph -/

/-- A provider: `generate` returns an outcome or raises. -/
structure ReviewProvider where
  providerName : String
  modelName : Option String
  generate : ContractReviewEvidence → String → String → Option ContractReviewOutcome

section Graph

variable (py : PyText) (e : ContractReviewEvidence)

/-- `_summarize` -/
def evidenceSummary : String := schemaDiffSummary (e.schemaDiffs ++ e.driftViolations)

/-- The heuristic review of the bundle in the graph. -/
def fallbackReview (reason : String) : ContractReviewOutcome :=
  buildHeuristicReview py e (evidenceSummary e) (consumerImpactSummary py e) (some reason)

/-- `_generate`: the candidate, unless the provider raises. -/
def generateReview (provider : ReviewProvider) : Option ContractReviewOutcome :=
  if e.insufficientEvidence then
    some (fallbackReview py e "Insufficient evidence to produce a grounded contract review.")
  else provider.generate e (evidenceSummary e) (consumerImpactSummary py e)

/-- `_validate` -/
def validateSchema (candidate : ContractReviewOutcome) : ContractReviewOutcome :=
  if candidate.Valid then candidate
  else fallbackReview py e
    "Model output failed schema validation; using evidence-only fallback review."

/-- Some citation of the bundle is a substring of the line. -/
def hasCitation (line : String) : Bool := e.citations.any fun c => contains c line

/-- `_ground` -/
def verifyEvidenceGrounding (review : ContractReviewOutcome) : ContractReviewOutcome :=
  if review.evidence.isEmpty || review.evidence.any fun line => !hasCitation e line then
    fallbackReview py e
      "Generated evidence lacked grounded citations; using evidence-only fallback review."
  else review

/-- The review that `_persist` stores, unless the provider raises. -/
def persistedReview (provider : ReviewProvider) : Option ContractReviewOutcome :=
  (generateReview py e provider).map fun candidate =>
    verifyEvidenceGrounding py e (validateSchema py e candidate)

/-- The outcome passes both nodes. -/
def Accepted (outcome : ContractReviewOutcome) : Prop :=
  outcome.Valid ∧ outcome.evidence ≠ [] ∧ ∀ line ∈ outcome.evidence, hasCitation e line = true

instance (outcome : ContractReviewOutcome) : Decidable (Accepted e outcome) :=
  inferInstanceAs (Decidable (_ ∧ _))

theorem fallbackReview_evidence (reason : String) :
    (fallbackReview py e reason).evidence = citationLines e.listed := rfl

/-- The check of `_ground`. -/
theorem lacks_citation_iff (lines : List String) :
    (lines.isEmpty || lines.any fun line => !hasCitation e line) = true ↔
      ¬(lines ≠ [] ∧ ∀ line ∈ lines, hasCitation e line = true) := by
  rw [← Bool.not_eq_false, not_iff_not]
  simp only [Bool.or_eq_false_iff, List.isEmpty_eq_false_iff, List.any_eq_false,
    Bool.not_eq_true', Bool.not_eq_false, ne_eq]

/-- An accepted outcome is persisted as it is. -/
theorem nodes_of_accepted {outcome : ContractReviewOutcome} (h : Accepted e outcome) :
    verifyEvidenceGrounding py e (validateSchema py e outcome) = outcome := by
  rw [validateSchema, if_pos h.1, verifyEvidenceGrounding,
    if_neg fun htest => (lacks_citation_iff e _).mp htest h.2]

/-- What replaces any other outcome is a heuristic review. -/
theorem exists_nodes_eq_fallback {outcome : ContractReviewOutcome} (h : ¬Accepted e outcome) :
    ∃ reason, verifyEvidenceGrounding py e (validateSchema py e outcome) =
      fallbackReview py e reason := by
  rw [verifyEvidenceGrounding]
  split
  · exact ⟨_, rfl⟩
  · rename_i htest
    by_cases hvalid : outcome.Valid
    · rw [validateSchema, if_pos hvalid, lacks_citation_iff, not_not] at htest
      exact absurd ⟨hvalid, htest⟩ h
    · rw [validateSchema, if_neg hvalid]
      exact ⟨_, rfl⟩

/-- The lines of the outcome that is persisted: its own if it is accepted, else those of the
heuristic review. -/
theorem nodes_evidence (outcome : ContractReviewOutcome) :
    (verifyEvidenceGrounding py e (validateSchema py e outcome)).evidence =
      if Accepted e outcome then outcome.evidence else citationLines e.listed := by
  by_cases h : Accepted e outcome
  · rw [if_pos h, nodes_of_accepted py e h]
  · obtain ⟨reason, hreason⟩ := exists_nodes_eq_fallback py e h
    rw [if_neg h, hreason, fallbackReview_evidence]

end Graph

/-! ### Citation tokens -/

def kinds : List EvidenceKind :=
  [.schemaDiff, .snapshot, .validation, .dlq, .driftEventDlq, .attempt, .driftViolation]

/-- What a token of the kind begins with. -/
def tokenHead (kind : EvidenceKind) : List Char := kind.label.toList ++ [':']

/-- What makes a `dlq` the end of a `drift-event-dlq`. -/
def driftEvent : List Char := "drift-event-".toList

/-- The token of the kind at a place of a text: the digits of the index are all that follow, and
the kind is not the end of another one. -/
def citedAt (kind : EvidenceKind) (before rest : List Char) : Option String :=
  let digits := (rest.drop (tokenHead kind).length).takeWhile Char.isDigit
  if tokenHead kind <+: rest ∧ digits ≠ [] ∧ ¬(kind = .dlq ∧ driftEvent <:+ before) then
    some (String.ofList (tokenHead kind ++ digits))
  else none

/-- The citation tokens of a text, place by place. -/
def citedFrom : List Char → List Char → List String
  | _, [] => []
  | before, c :: rest =>
    kinds.filterMap (citedAt · before (c :: rest)) ++ citedFrom (before ++ [c]) rest

def cited (text : String) : List String := citedFrom [] text.toList

/-- Every token that the text cites is a citation of the bundle. -/
def CitesOnly (e : ContractReviewEvidence) (text : String) : Prop :=
  ∀ token ∈ cited text, token ∈ e.citations

instance (e : ContractReviewEvidence) (text : String) : Decidable (CitesOnly e text) :=
  inferInstanceAs (Decidable (∀ token ∈ cited text, token ∈ e.citations))

/-- The line cites an item of the bundle, and nothing else. -/
def Grounded (e : ContractReviewEvidence) (line : String) : Prop :=
  (∃ token ∈ cited line, token ∈ e.citations) ∧ CitesOnly e line

/-! ### Where the tokens of a text are -/

/-- A token of the kind stands at the beginning of `rest`. -/
structure TokenAt (kind : EvidenceKind) (before rest digits after : List Char) : Prop where
  rest_eq : rest = tokenHead kind ++ (digits ++ after)
  digits_ne : digits ≠ []
  isDigit : ∀ d ∈ digits, d.isDigit = true
  stops : ∀ c ∈ after.head?, c.isDigit = false
  free : ¬(kind = .dlq ∧ driftEvent <:+ before)

theorem takeWhile_append_of_stops {p : Char → Bool} {digits after : List Char}
    (hdigits : ∀ d ∈ digits, p d = true) (hstops : ∀ c ∈ after.head?, p c = false) :
    (digits ++ after).takeWhile p = digits := by
  rw [List.takeWhile_append_of_pos hdigits]
  cases after with
  | nil => rw [List.takeWhile_nil, List.append_nil]
  | cons c after => rw [List.takeWhile_cons_of_neg (by simpa using hstops c rfl), List.append_nil]

theorem stops_dropWhile (p : Char → Bool) (l : List Char) :
    ∀ c ∈ (l.dropWhile p).head?, p c = false := by
  intro c hc
  have hhead := List.head?_dropWhile_not p l
  rw [Option.mem_def.mp hc] at hhead
  exact hhead

theorem citedAt_eq_some {kind : EvidenceKind} {before rest : List Char} {token : String} :
    citedAt kind before rest = some token ↔ ∃ digits after, TokenAt kind before rest digits after ∧
      token = String.ofList (tokenHead kind ++ digits) := by
  rw [citedAt]
  constructor
  · intro h
    split_ifs at h with hif
    obtain ⟨⟨tail, rfl⟩, hne, hfree⟩ := hif
    rw [List.drop_left] at hne h
    refine ⟨tail.takeWhile Char.isDigit, tail.dropWhile Char.isDigit, ⟨?_, hne, ?_, ?_, hfree⟩, ?_⟩
    · rw [List.takeWhile_append_dropWhile]
    · exact fun d hd => List.mem_takeWhile_imp hd
    · exact stops_dropWhile _ _
    · exact (Option.some.inj h).symm
  · rintro ⟨digits, after, htoken, rfl⟩
    obtain ⟨rfl, hne, hdigits, hstops, hfree⟩ := htoken
    simp only [List.drop_left, takeWhile_append_of_stops hdigits hstops]
    rw [if_pos ⟨List.prefix_append _ _, hne, hfree⟩]

theorem mem_kinds (kind : EvidenceKind) : kind ∈ kinds := by
  cases kind <;> decide

theorem mem_citedFrom {token : String} (text : List Char) : ∀ {start : List Char},
    token ∈ citedFrom start text ↔ ∃ before rest kind, text = before ++ rest ∧
      citedAt kind (start ++ before) rest = some token := by
  induction text with
  | nil =>
    intro start
    simp only [citedFrom, List.not_mem_nil, false_iff]
    rintro ⟨before, rest, kind, hsplit, hcited⟩
    obtain ⟨digits, after, htoken, -⟩ := citedAt_eq_some.mp hcited
    obtain ⟨-, rfl⟩ := List.append_eq_nil_iff.mp hsplit.symm
    have hlength := congrArg List.length htoken.rest_eq
    simp [tokenHead] at hlength
  | cons c text ih =>
    intro start
    rw [citedFrom, List.mem_append, List.mem_filterMap, ih]
    constructor
    · rintro (⟨kind, -, hcited⟩ | ⟨before, rest, kind, rfl, hcited⟩)
      · exact ⟨[], c :: text, kind, rfl, by rwa [List.append_nil]⟩
      · exact ⟨c :: before, rest, kind, rfl, by rwa [List.append_assoc] at hcited⟩
    · rintro ⟨before, rest, kind, hsplit, hcited⟩
      cases before with
      | nil =>
        rw [List.append_nil] at hcited
        exact .inl ⟨kind, mem_kinds kind, hsplit ▸ hcited⟩
      | cons d before =>
        obtain ⟨rfl, rfl⟩ := List.cons.inj hsplit
        exact .inr ⟨before, rest, kind, rfl, by rwa [List.append_assoc]⟩

/-- A token of a text is one that stands somewhere in it. -/
theorem mem_cited {text token : String} : token ∈ cited text ↔
    ∃ before rest kind digits after, text.toList = before ++ rest ∧
      TokenAt kind before rest digits after ∧
        token = String.ofList (tokenHead kind ++ digits) := by
  rw [cited, mem_citedFrom]
  simp only [List.nil_append, citedAt_eq_some]
  constructor
  · rintro ⟨before, rest, kind, hsplit, digits, after, h⟩
    exact ⟨before, rest, kind, digits, after, hsplit, h⟩
  · rintro ⟨before, rest, kind, digits, after, hsplit, h⟩
    exact ⟨before, rest, kind, hsplit, digits, after, h⟩

/-- The characters of a citation. -/
theorem toList_citation (kind : EvidenceKind) (n : ℕ) :
    (citation kind n).toList = tokenHead kind ++ Nat.toDigits 10 n := by
  have hindex : (toString n).toList = Nat.toDigits 10 n := by
    show (Nat.repr n).toList = _
    rw [Nat.repr, String.toList_ofList]
  rw [citation, String.toList_append, String.toList_append, hindex]
  rfl

theorem isDigit_toDigits {n : ℕ} : ∀ d ∈ Nat.toDigits 10 n, d.isDigit = true :=
  fun _ hd => Nat.isDigit_of_mem_toDigits (by decide) le_rfl hd

/-! ### A line that contains a citation has a token -/

theorem exists_cited_of_contains {kind : EvidenceKind} {n : ℕ} {line : String}
    (h : contains (citation kind n) line = true) : ∃ token, token ∈ cited line := by
  rw [contains, decide_eq_true_iff, toList_citation] at h
  obtain ⟨before, after, hline⟩ := h
  -- the index goes on as long as there are digits
  let digits := Nat.toDigits 10 n ++ after.takeWhile Char.isDigit
  have hrest : ∀ kind', tokenHead kind' ++ (digits ++ after.dropWhile Char.isDigit) =
      tokenHead kind' ++ Nat.toDigits 10 n ++ after := by
    intro kind'
    simp only [digits, List.append_assoc, List.takeWhile_append_dropWhile]
  have hne : digits ≠ [] := List.append_ne_nil_of_left_ne_nil Nat.toDigits_ne_nil _
  have hdigits : ∀ d ∈ digits, d.isDigit = true := by
    intro d hd
    obtain hd | hd := List.mem_append.mp hd
    · exact isDigit_toDigits d hd
    · exact List.mem_takeWhile_imp hd
  by_cases hfree : kind = .dlq ∧ driftEvent <:+ before
  · obtain ⟨rfl, before', rfl⟩ := hfree
    have hhead : tokenHead .driftEventDlq = driftEvent ++ tokenHead .dlq := by decide
    refine ⟨_, mem_cited.mpr ⟨before', _, .driftEventDlq, digits, after.dropWhile Char.isDigit, ?_,
      ⟨rfl, hne, hdigits, stops_dropWhile _ _, fun h => EvidenceKind.noConfusion h.1⟩, rfl⟩⟩
    rw [← hline, hrest, hhead]
    simp only [List.append_assoc]
  · refine ⟨_, mem_cited.mpr ⟨before, _, kind, digits, after.dropWhile Char.isDigit, ?_,
      ⟨rfl, hne, hdigits, stops_dropWhile _ _, hfree⟩, rfl⟩⟩
    rw [← hline, hrest, List.append_assoc]

/-- A line that passes the check cites an item of the bundle as soon as it cites nothing else. -/
theorem grounded_of_citesOnly (e : EvidenceBundle) {line : String}
    (hcheck : hasCitation e.toContractReviewEvidence line = true)
    (hcites : CitesOnly e.toContractReviewEvidence line) :
    Grounded e.toContractReviewEvidence line := by
  obtain ⟨c, hc, hcontains⟩ := List.any_eq_true.mp hcheck
  obtain ⟨kind, n, rfl⟩ := e.citation_of_mem_citations hc
  obtain ⟨token, htoken⟩ := exists_cited_of_contains hcontains
  exact ⟨⟨token, htoken, hcites token htoken⟩, hcites⟩

/-! ### The lines of the heuristic review -/

/-- Behind a blank a word without blanks ends in what follows. -/
theorem suffix_of_suffix_append {word y : List Char} (front : List Char) (hblank : ' ' ∉ word)
    (h : word <:+ front ++ [' '] ++ y) : word <:+ y := by
  by_cases hlength : word.length ≤ y.length
  · exact List.suffix_of_suffix_length_le h (List.suffix_append _ _) hlength
  · have hy : ' ' :: y <:+ front ++ [' '] ++ y := ⟨front, by simp⟩
    have hle : (' ' :: y).length ≤ word.length := by
      rw [List.length_cons]
      omega
    have hsub := List.suffix_of_suffix_length_le hy h hle
    exact absurd (hsub.subset List.mem_cons_self) hblank

theorem blank_notMem_driftEvent : ' ' ∉ driftEvent := by decide

/-- No kind but `dlq` is the end of another one. -/
theorem kind_of_label_suffix {kind kind' : EvidenceKind} {before : List Char}
    (h : '[' :: kind'.label.toList = before ++ kind.label.toList) :
    kind = kind' ∨ (kind = .dlq ∧ driftEvent <:+ before) := by
  have hcheck : ∀ k k' : EvidenceKind, k.label.toList <:+ '[' :: k'.label.toList →
      k = k' ∨ (k = .dlq ∧ driftEvent <:+
        ('[' :: k'.label.toList).take (('[' :: k'.label.toList).length - k.label.toList.length)) := by
    intro k k'
    cases k <;> cases k' <;> decide
  have hbefore : ('[' :: kind'.label.toList).take
      (('[' :: kind'.label.toList).length - kind.label.toList.length) = before := by
    rw [h, List.length_append, Nat.add_sub_cancel, List.take_left]
  have hkinds := hcheck kind kind' ⟨before, h.symm⟩
  rwa [hbefore] at hkinds

theorem blank_notMem_token {kind : EvidenceKind} {digits : List Char}
    (hdigits : ∀ d ∈ digits, d.isDigit = true) : ' ' ∉ tokenHead kind ++ digits := by
  intro h
  obtain h | h := List.mem_append.mp h
  · revert h
    cases kind <;> decide
  · exact absurd (hdigits _ h) (by decide)

theorem colon_notMem_label (kind : EvidenceKind) : ':' ∉ '[' :: kind.label.toList := by
  cases kind <;> decide

/-- The token in the brackets of a line is its citation. -/
theorem token_of_bracket {kind kind' : EvidenceKind} {index before digits z after s : List Char}
    (hindex : ∀ d ∈ index, d.isDigit = true)
    (hsplit : '[' :: (tokenHead kind' ++ index) ++ [']', ' '] =
      before ++ (tokenHead kind ++ digits ++ z))
    (hafter : after = z ++ s) (hdigits : ∀ d ∈ digits, d.isDigit = true)
    (hstops : ∀ c ∈ after.head?, c.isDigit = false)
    (hfree : ¬(kind = .dlq ∧ driftEvent <:+ before)) :
    tokenHead kind ++ digits = tokenHead kind' ++ index := by
  have hcolon : ':' ∉ index ++ [']', ' '] := by
    intro h
    obtain h | h := List.mem_append.mp h
    · exact absurd (hindex _ h) (by decide)
    · exact absurd h (by decide)
  -- there is one colon only, so both sides are cut at it
  have hcut : ('[' :: kind'.label.toList) ++ ':' :: (index ++ [']', ' ']) =
      (before ++ kind.label.toList) ++ ':' :: (digits ++ z) := by
    simpa only [tokenHead, List.append_assoc, List.cons_append, List.nil_append] using hsplit
  obtain ⟨hlabel, -, hrest⟩ :=
    (List.append_cons_inj_of_notMem (colon_notMem_label kind') hcolon).mp hcut
  have hkind : kind = kind' := (kind_of_label_suffix hlabel).resolve_right hfree
  have hz : z ≠ [] := by
    rintro rfl
    rw [List.append_nil] at hrest
    have hblank : ' ' ∈ digits := hrest ▸ List.mem_append_right _ (by decide)
    exact absurd (hdigits _ hblank) (by decide)
  have hzstops : ∀ c ∈ z.head?, c.isDigit = false := by
    intro c hc
    rw [hafter, List.head?_append_of_ne_nil _ hz] at hstops
    exact hstops c hc
  have hdigitsEq := congrArg (List.takeWhile Char.isDigit) hrest
  rw [takeWhile_append_of_stops hdigits hzstops,
    takeWhile_append_of_stops hindex (by simp)] at hdigitsEq
  rw [hkind, hdigitsEq]

/-- The tokens of a line of the heuristic review are its citation and those of the summary. -/
theorem mem_cited_line {kind : EvidenceKind} {n : ℕ} {summary token : String} :
    token ∈ cited ("[" ++ citation kind n ++ "] " ++ summary) ↔
      token = citation kind n ∨ token ∈ cited summary := by
  have hline : ("[" ++ citation kind n ++ "] " ++ summary).toList =
      '[' :: (tokenHead kind ++ Nat.toDigits 10 n) ++ [']', ' '] ++ summary.toList := by
    rw [String.toList_append, String.toList_append, String.toList_append, toList_citation]
    rfl
  have hcitation : citation kind n = String.ofList (tokenHead kind ++ Nat.toDigits 10 n) := by
    rw [← toList_citation, String.ofList_toList]
  rw [mem_cited, hline]
  constructor
  · rintro ⟨before, rest, kind', digits, after, hsplit, htoken, rfl⟩
    obtain ⟨y, rfl, hrest⟩ | ⟨x, hx, hrest⟩ := List.append_eq_append_iff.mp hsplit
    · -- behind the brackets
      refine .inr (mem_cited.mpr ⟨y, rest, kind', digits, after, hrest, ?_, rfl⟩)
      exact { htoken with
        free := fun h => htoken.free ⟨h.1, h.2.trans (List.suffix_append _ _)⟩ }
    · by_cases hxnil : x = []
      · -- at the first character of the summary
        subst hxnil
        rw [List.append_nil] at hx
        refine .inr (mem_cited.mpr ⟨[], rest, kind', digits, after, hrest.symm, ?_, rfl⟩)
        exact { htoken with
          free := fun h => htoken.free ⟨h.1, h.2.trans (List.nil_suffix)⟩ }
      · -- inside the brackets: the token ends before the blank
        left
        have hblankx : ' ' ∈ x := by
          have hlast := congrArg List.getLast? hx
          rw [List.getLast?_append_of_ne_nil _ hxnil] at hlast
          refine List.mem_of_getLast? (hlast.symm.trans ?_)
          rw [List.getLast?_append_of_ne_nil _ (by decide)]
          rfl
        rw [htoken.rest_eq, ← List.append_assoc] at hrest
        obtain ⟨z, rfl, hafter⟩ | ⟨z, hz, -⟩ := List.append_eq_append_iff.mp hrest
        · rw [hcitation, token_of_bracket isDigit_toDigits hx hafter htoken.isDigit htoken.stops
            htoken.free]
        · exact absurd (hz ▸ List.mem_append_left _ hblankx)
            (blank_notMem_token htoken.isDigit)
  · rintro (rfl | hsummary)
    · refine ⟨['['], _, kind, Nat.toDigits 10 n, [']', ' '] ++ summary.toList, ?_,
        ⟨rfl, Nat.toDigits_ne_nil, isDigit_toDigits, ?_, ?_⟩, hcitation⟩
      · simp only [List.cons_append, List.nil_append, List.append_assoc]
      · intro c hc
        rw [← Option.mem_some.mp hc]
        decide
      · rintro ⟨-, h⟩
        revert h
        decide
    · obtain ⟨before, rest, kind', digits, after, hsplit, htoken, rfl⟩ := mem_cited.mp hsummary
      refine ⟨'[' :: (tokenHead kind ++ Nat.toDigits 10 n) ++ [']', ' '] ++ before, rest, kind',
        digits, after, by rw [hsplit, List.append_assoc _ before], ?_, rfl⟩
      refine { htoken with free := fun h => htoken.free ⟨h.1, ?_⟩ }
      refine suffix_of_suffix_append ('[' :: (tokenHead kind ++ Nat.toDigits 10 n) ++ [']'])
        blank_notMem_driftEvent ?_
      simpa only [List.append_assoc, List.cons_append, List.nil_append] using h.2

/-- A line of the heuristic review is grounded exactly when its summary cites only the bundle. -/
theorem grounded_line_iff (e : EvidenceBundle) {item : EvidenceItem} (h : item ∈ e.items) :
    Grounded e.toContractReviewEvidence ("[" ++ item.citation ++ "] " ++ item.summary) ↔
      CitesOnly e.toContractReviewEvidence item.summary := by
  have hmem : item.citation ∈ e.citations := List.mem_map_of_mem h
  obtain ⟨kind, hkind⟩ := (e.mem_items_iff item).mp h
  obtain ⟨n, hn⟩ := e.citation_of_mem hkind
  rw [hn] at hmem ⊢
  constructor
  · intro hground token htoken
    exact hground.2 token (mem_cited_line.mpr (.inr htoken))
  · intro hsummary
    refine ⟨⟨citation kind n, mem_cited_line.mpr (.inl rfl), hmem⟩, fun token htoken => ?_⟩
    obtain rfl | htoken := mem_cited_line.mp htoken
    · exact hmem
    · exact hsummary token htoken

theorem grounded_citationLines_iff (e : EvidenceBundle) :
    (∀ line ∈ citationLines e.listed, Grounded e.toContractReviewEvidence line) ↔
      ∀ text ∈ e.listed.map EvidenceItem.summary, CitesOnly e.toContractReviewEvidence text := by
  rw [citationLines, List.forall_mem_map, List.forall_mem_map]
  exact forall₂_congr fun item hitem =>
    grounded_line_iff e (ContractReviewEvidence.mem_items_of_listed hitem)

/-! ### What is persisted -/

/-- The texts that the lines of the persisted review are made of: the lines of an outcome that
passes both nodes, or the summaries that the heuristic review lists. -/
def shownTexts (py : PyText) (e : ContractReviewEvidence) (provider : ReviewProvider) :
    List String :=
  if e.insufficientEvidence then e.listed.map EvidenceItem.summary
  else match provider.generate e (evidenceSummary e) (consumerImpactSummary py e) with
    | none => []
    | some outcome =>
      if Accepted e outcome then outcome.evidence else e.listed.map EvidenceItem.summary

theorem grounded_accepted_iff (e : EvidenceBundle) {outcome : ContractReviewOutcome}
    (h : Accepted e.toContractReviewEvidence outcome) :
    (∀ line ∈ outcome.evidence, Grounded e.toContractReviewEvidence line) ↔
      ∀ text ∈ outcome.evidence, CitesOnly e.toContractReviewEvidence text :=
  forall₂_congr fun line hline =>
    ⟨fun hground => hground.2, grounded_of_citesOnly e (h.2.2 line hline)⟩

/-- **Grounded reviews.** Every line of the persisted review cites an item of the bundle by a whole
token, and no item that the bundle does not have, if and only if the texts it is made of cite
nothing from outside the bundle. -/
theorem review_grounded_iff (py : PyText) (e : EvidenceBundle) (provider : ReviewProvider) :
    (∀ review ∈ persistedReview py e.toContractReviewEvidence provider,
      ∀ line ∈ review.evidence, Grounded e.toContractReviewEvidence line) ↔
    ∀ text ∈ shownTexts py e.toContractReviewEvidence provider,
      CitesOnly e.toContractReviewEvidence text := by
  rw [persistedReview, generateReview, shownTexts]
  by_cases hinsufficient : e.insufficientEvidence = true
  · rw [if_pos hinsufficient, if_pos hinsufficient, Option.map_some]
    simp only [Option.mem_some_iff, forall_eq', nodes_evidence]
    rw [fallbackReview, buildHeuristicReview_evidence, ite_self]
    exact grounded_citationLines_iff e
  · rw [if_neg hinsufficient, if_neg hinsufficient]
    cases provider.generate e.toContractReviewEvidence (evidenceSummary e.toContractReviewEvidence)
        (consumerImpactSummary py e.toContractReviewEvidence) with
    | none => simp
    | some outcome =>
      simp only [Option.map_some, Option.mem_some_iff, forall_eq', nodes_evidence]
      by_cases haccepted : Accepted e.toContractReviewEvidence outcome
      · rw [if_pos haccepted, if_pos haccepted]
        exact grounded_accepted_iff e haccepted
      · rw [if_neg haccepted, if_neg haccepted]
        exact grounded_citationLines_iff e

/-! ### Samples -/

/-- A bundle with one schema diff. -/
def sampleBundle : EvidenceBundle where
  endpointId := "e"
  endpointName := "GET /orders"
  nameSpace := "default"
  serviceName := "orders"
  httpMethod := "GET"
  routePath := "/orders"
  currentVersion := some 2
  schemaDiffs := [⟨"schema-diff:1", "schema_diff", "removed required field", []⟩]
  payloadSnapshots := []
  validationFailures := []
  dlqEntries := []
  driftEventDlqEntries := []
  deliveryAttempts := []
  subscriptions := []
  driftViolations := []
  notes := []
  insufficientEvidence := false
  numbered kind := by cases kind <;> decide
  counted item h := absurd h List.not_mem_nil

/-- An outcome whose one line cites the twelfth schema diff. -/
def sampleOutcome : ContractReviewOutcome where
  decision := .block
  severity := .breaking
  summary := "s"
  consumerImpact := "c"
  impactedConsumers := []
  severityExplanation := ""
  riskSummary := ""
  rolloutAction := ""
  evidence := ["schema-diff:12"]
  recommendedFixes := []
  migrationNote := "m"
  reviewComment := "r"
  confidence := 1
  insufficientEvidence := false

def sampleProvider : ReviewProvider := ⟨"fake", some "fake", fun _ _ _ => some sampleOutcome⟩

/-- A line that cites the twelfth of one item passes the check. -/
theorem review_cites_missing_item : ¬∀ (py : PyText) (e : EvidenceBundle)
    (provider : ReviewProvider), ∀ review ∈ persistedReview py e.toContractReviewEvidence provider,
      ∀ line ∈ review.evidence, Grounded e.toContractReviewEvidence line := by
  intro h
  have haccepted : Accepted sampleBundle.toContractReviewEvidence sampleOutcome := by
    decide
  have hevidence := nodes_evidence samplePyText sampleBundle.toContractReviewEvidence sampleOutcome
  rw [if_pos haccepted] at hevidence
  have hground := h samplePyText sampleBundle sampleProvider _ rfl "schema-diff:12"
    (hevidence ▸ List.mem_cons_self)
  exact absurd hground.2 (by decide)

end Driftgate.Review
