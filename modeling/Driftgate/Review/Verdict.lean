import Driftgate.Review.Evidence
import Driftgate.Runtime.System

/-!
# The verdict of a review on a schema diff

The document of a schema diff has its verdict under `classification`. The review looks for
`severity` and `change_type`, which the document does not have, and then searches the summary: the
classification, and the JSON text of the diffs cut after 180 characters. So the verdict of the
review depends on the words that the rendering happens to have before the cut, among them the keys
of the dictionaries and the names of the paths.
-/

namespace Driftgate.Review

open Driftgate.Schema Driftgate.Runtime Driftgate.Occurrence

variable {py : PyText}

/-! ### Lower-case texts -/

theorem lower_eq_map {s : String} (h : PlainText s) : py.lower s = s.map Char.toLower :=
  py.lower_plain s h

/-- The text of the diffs that the review searches. -/
def shownDiffs (py : PyText) (diffs : List DiffItem) : String :=
  py.lower (truncate py (diffsJson diffs) 180)

theorem plainText_truncate_diffs (diffs : List DiffItem) :
    PlainText (truncate py (diffsJson diffs) 180) :=
  plainText_cut (plainText_jsonDumps (diffsJson diffs)) 180

/-- What stands before the text of the diffs. -/
def summaryHead (c : Compatibility) : List Char :=
  (c.name.toList ++ " diff at [unknown] message=".toList).map Char.toLower

variable (cfg : Config) (documentId createdAt : String) (call : TrackCall)

/-- The summary of a schema diff: it has no `path`, and no `message` but its diffs. -/
theorem schemaDiffItem_summary (index : ℕ) (d : Drift) :
    (schemaDiffItem py index (schemaDiffDocument cfg documentId createdAt call d)).summary =
      d.classification.name ++ " diff at [unknown] message=" ++ truncate py (diffsJson d.diffs) 180 := by
  have hclass : get (schemaDiffDocument cfg documentId createdAt call d) "classification"
      (.str "unknown") = .str d.classification.name := rfl
  have hpath : get (schemaDiffDocument cfg documentId createdAt call d) "path"
      (.str "[unknown]") = .str "[unknown]" := rfl
  have hmessage : get (schemaDiffDocument cfg documentId createdAt call d) "message"
      (get (schemaDiffDocument cfg documentId createdAt call d) "diffs" (.arr [])) =
        diffsJson d.diffs := rfl
  have hwords : " diff at " ++ "[unknown]" ++ " message=" = " diff at [unknown] message=" := rfl
  rw [schemaDiffItem, hclass, hpath, hmessage, ← hwords]
  simp only [pyStr, String.append_assoc]

theorem plainText_head (c : Compatibility) : PlainText (c.name ++ " diff at [unknown] message=") := by
  cases c <;> exact plainText_of_all rfl

theorem lower_empty : py.lower "" = "" :=
  (lower_eq_map (plainText_of_all (s := "") rfl)).trans (by simp)

theorem searched_schemaDiffItem (index : ℕ) (d : Drift) :
    (searched py (schemaDiffItem py index
      (schemaDiffDocument cfg documentId createdAt call d))).toList =
      summaryHead d.classification ++ (shownDiffs py d.diffs).toList ++ [' '] := by
  have hchange : lowerDetail py (schemaDiffItem py index
      (schemaDiffDocument cfg documentId createdAt call d)) "change_type" = "" := lower_empty
  have hspace : PlainText " " := plainText_of_all rfl
  have hdiffs : PlainText (truncate py (diffsJson d.diffs) 180) := plainText_truncate_diffs d.diffs
  have hplain := (plainText_head d.classification).append hdiffs
  rw [searched, hchange, schemaDiffItem_summary, String.append_empty, lower_eq_map (hplain.append hspace),
    shownDiffs, lower_eq_map hdiffs]
  simp only [String.toList_map, String.toList_append, List.map_append, summaryHead]
  rfl

/-! ### Words -/

/-- The word occurs neither in the head nor at either border. -/
def Inside (head word : List Char) : Bool :=
  !decide (word <:+: head) && !Meets word head && !decide (word <:+: [' ']) && !MeetsTail word [' ']

theorem mentions_inside {head : List Char} {tokens : List String} {text shown : String}
    (h : ∀ t ∈ tokens, Inside head t.toList = true)
    (htext : text.toList = head ++ shown.toList ++ [' ']) :
    mentions tokens text = mentions tokens shown := by
  have hall : ∀ t ∈ tokens, (contains t text = true ↔ contains t shown = true) := by
    intro t ht
    have hinside := h t ht
    simp only [Inside, Bool.and_eq_true, Bool.not_eq_true', decide_eq_false_iff_not] at hinside
    obtain ⟨⟨⟨hhead, hmeets⟩, hspace⟩, htail⟩ := hinside
    rw [contains, contains, decide_eq_true_iff, decide_eq_true_iff, htext,
      infix_append_iff_of_not_meetsTail htail, infix_append_iff_of_not_meets hmeets]
    simp only [hhead, hspace, false_or, or_false]
  rw [mentions, mentions, Bool.eq_iff_iff, List.any_eq_true, List.any_eq_true]
  exact exists_congr fun t => and_congr_right (hall t)

/-- The words of the head of a summary are none of those searched, apart from its own "risky". -/
theorem inside_summaryHead {c : Compatibility} {t : String} (ht : t ∈ breakingTokens ++ riskyTokens)
    (hown : t = "risky" → c ≠ .risky) : Inside (summaryHead c) t.toList = true := by
  have hcheck : ∀ c ∈ [Compatibility.safe, .backwardCompatible, .forwardCompatible, .risky, .breaking],
      ((breakingTokens ++ riskyTokens).all fun t => Inside (summaryHead c) t.toList ||
        (decide (t = "risky") && decide (c = .risky))) = true := by
    decide
  have hword := List.all_eq_true.mp (hcheck c (by cases c <;> simp)) t ht
  rw [Bool.or_eq_true, Bool.and_eq_true, decide_eq_true_iff, decide_eq_true_iff] at hword
  exact hword.resolve_right fun h => hown h.1 h.2

/-! ### The verdict -/

/-- The verdict of the review that refines a classification. -/
def severityOf : Compatibility → ReviewSeverity
  | .breaking => .breaking
  | .risky => .risky
  | _ => .compatible

/-- The text of the diffs has the words that go with their classification, and none of a graver
one. "risky" is a word of the summary itself when the classification is RISKY. -/
def ShowsClassification (text : String) : Compatibility → Prop
  | .breaking => mentions breakingTokens text = true
  | .risky => mentions breakingTokens text = false
  | _ => mentions breakingTokens text = false ∧ mentions riskyTokens text = false

instance (text : String) (c : Compatibility) : Decidable (ShowsClassification text c) := by
  unfold ShowsClassification
  split <;> infer_instance

/-- The review's verdict on one item. -/
theorem severityFromEvidence_singleton (item : EvidenceItem) : severityFromEvidence py [item] =
    if itemBreaking py item then .breaking else if itemRisky py item then .risky else .compatible := by
  rw [severityFromEvidence, severityLoop]
  split
  · rfl
  · rfl

theorem itemBreaking_schemaDiffItem (index : ℕ) (d : Drift) :
    itemBreaking py (schemaDiffItem py index (schemaDiffDocument cfg documentId createdAt call d)) =
      mentions breakingTokens (shownDiffs py d.diffs) := by
  have hseverity : lowerDetail py (schemaDiffItem py index
      (schemaDiffDocument cfg documentId createdAt call d)) "severity" = "" := lower_empty
  have hinside : ∀ t ∈ breakingTokens, Inside (summaryHead d.classification) t.toList = true := by
    intro t ht
    refine inside_summaryHead (List.mem_append_left _ ht) fun hown => ?_
    simp [hown, breakingTokens] at ht
  rw [itemBreaking, hseverity, mentions_inside hinside (searched_schemaDiffItem ..)]
  exact Bool.false_or _

theorem itemRisky_schemaDiffItem (index : ℕ) (d : Drift) :
    itemRisky py (schemaDiffItem py index (schemaDiffDocument cfg documentId createdAt call d)) =
      (decide (d.classification = .risky) || mentions riskyTokens (shownDiffs py d.diffs)) := by
  have hseverity : lowerDetail py (schemaDiffItem py index
      (schemaDiffDocument cfg documentId createdAt call d)) "severity" = "" := lower_empty
  have htext : (searched py (schemaDiffItem py index
      (schemaDiffDocument cfg documentId createdAt call d))).toList = _ :=
    searched_schemaDiffItem cfg documentId createdAt call index d
  rw [itemRisky, hseverity]
  by_cases hrisky : d.classification = .risky
  · have hword : "risky".toList <:+: summaryHead .risky := by
      have hname : Compatibility.risky.name.toList.map Char.toLower = "risky".toList := by decide
      rw [summaryHead, List.map_append, hname]
      exact (List.prefix_append _ _).isInfix
    have hmentions : mentions riskyTokens (searched py (schemaDiffItem py index
        (schemaDiffDocument cfg documentId createdAt call d))) = true := by
      refine List.any_eq_true.mpr ⟨"risky", List.mem_cons_self, decide_eq_true ?_⟩
      rw [htext, hrisky, List.append_assoc]
      exact List.infix_append_of_infix_left hword
    rw [hmentions, hrisky]
    rfl
  · have hinside : ∀ t ∈ riskyTokens, Inside (summaryHead d.classification) t.toList = true :=
      fun t ht => inside_summaryHead (List.mem_append_right _ ht) fun _ => hrisky
    rw [mentions_inside hinside htext, decide_eq_false hrisky]
    rfl

/-- **When the review's verdict is that of the registry.** The item of a schema diff is judged as
its classification if and only if the first 180 characters of the JSON text of its diffs have the
words for it; a BREAKING version is blocked exactly then. -/
theorem review_verdict_iff (py : PyText) (cfg : Config) (documentId createdAt : String)
    (call : TrackCall) (index : ℕ) (d : Drift) :
    (severityFromEvidence py [schemaDiffItem py index
        (schemaDiffDocument cfg documentId createdAt call d)] = severityOf d.classification ↔
      ShowsClassification (shownDiffs py d.diffs) d.classification) ∧
    (d.classification = .breaking →
      (decisionForSeverity (severityFromEvidence py [schemaDiffItem py index
          (schemaDiffDocument cfg documentId createdAt call d)]) false = .block ↔
        ShowsClassification (shownDiffs py d.diffs) d.classification)) := by
  have hdecision : ∀ s, decisionForSeverity s false = .block ↔ s = .breaking := by
    intro s
    cases s <;> decide
  rw [severityFromEvidence_singleton, itemBreaking_schemaDiffItem, itemRisky_schemaDiffItem]
  generalize hb : mentions breakingTokens (shownDiffs py d.diffs) = b
  generalize hr : mentions riskyTokens (shownDiffs py d.diffs) = r
  constructor
  · cases d.classification <;> cases b <;> cases r <;>
      simp [ShowsClassification, severityOf, hb, hr]
  · intro hc
    rw [hdecision, hc]
    cases b <;> cases r <;> simp [ShowsClassification, hb]

/-! ### Samples -/

/-- The drift from version 1 to version 2 of an endpoint, with some diffs. -/
def sampleDrift (diffs : List DiffItem) : Drift where
  upserted := ⟨1, ⟨7, 1, 2, "f2", .members [], "SAFE", some 6, true⟩, true⟩
  oldVersion := 1
  oldFingerprint := "f1"
  diffs := diffs

def sampleCall : TrackCall := ⟨sampleKey, sampleNew, true⟩

/-- The item of the sample drift. -/
def sampleDiffItem (diffs : List DiffItem) : EvidenceItem :=
  schemaDiffItem samplePyText 1
    (schemaDiffDocument (sampleConfig true) "d" "t" sampleCall (sampleDrift diffs))

/-- The JSON text of one diff, piece by piece. -/
def diffChars (py : PyText) (d : DiffItem) : List Char :=
  ['[', '\x7b'] ++ [',', ' '].intercalate
    [(dumpsString "path").toList ++ [':', ' '] ++ (dumpsString d.path).toList,
      (dumpsString "old_type").toList ++ [':', ' '] ++ (jsonDumps py (optionText d.oldType)).toList,
      (dumpsString "new_type").toList ++ [':', ' '] ++ (jsonDumps py (optionText d.newType)).toList,
      (dumpsString "old_nullable").toList ++ [':', ' '] ++
        (jsonDumps py (optionBool d.oldNullable)).toList,
      (dumpsString "new_nullable").toList ++ [':', ' '] ++
        (jsonDumps py (optionBool d.newNullable)).toList,
      (dumpsString "classification").toList ++ [':', ' '] ++
        (dumpsString d.classification.name).toList,
      (dumpsString "reason").toList ++ [':', ' '] ++ (dumpsString d.reason).toList] ++
    ['\x7d', ']']

/-- The searched text of one diff, when it is not cut. -/
theorem toList_shownDiffs_one {d : DiffItem} (hlen : (diffChars py d).length ≤ 180) :
    (shownDiffs py [d]).toList = (diffChars py d).map Char.toLower := by
  have hdumps : (jsonDumps py (diffsJson [d])).toList = diffChars py d := by
    simp only [diffsJson, List.map_cons, List.map_nil, jsonDumps, jsonDumpsItems, jsonDumpsMembers,
      diffDict, String.toList_append, String.toList_intercalate, diffChars]
    simp [List.intercalate]
  have hcut : truncate py (diffsJson [d]) 180 = jsonDumps py (diffsJson [d]) := by
    show cut (jsonDumps py (diffsJson [d])) 180 = _
    rw [cut, hdumps, if_pos hlen]
  rw [shownDiffs, hcut, lower_eq_map (plainText_jsonDumps _), String.toList_map, hdumps]

/-- What `diff_and_classify` finds when the member `name` is lost. -/
def sampleRemoval : DiffItem :=
  ⟨"name", some "string", none, some false, none, .breaking, "removed required field"⟩

set_option maxRecDepth 4000 in
theorem mentions_sampleRemoval :
    mentions breakingTokens (shownDiffs samplePyText [sampleRemoval]) = true := by
  refine List.any_eq_true.mpr ⟨"removed", by simp [breakingTokens], ?_⟩
  rw [contains, toList_shownDiffs_one (by decide)]
  decide

/-- Losing a member is BREAKING for the review as well. -/
theorem review_verdict_removed : ∃ diffs, diffAndClassify (fun _ => true)
    (canonicalize sampleOld.json) (canonicalize sampleNew.json) = .ok diffs ∧
      decisionForSeverity (severityFromEvidence samplePyText [sampleDiffItem diffs]) false =
        .block := by
  have hclass : (sampleDrift [sampleRemoval]).classification = .breaking := rfl
  refine ⟨[sampleRemoval], rfl, ?_⟩
  refine ((review_verdict_iff samplePyText (sampleConfig true) "d" "t" sampleCall 1
    (sampleDrift [sampleRemoval])).2 hclass).mpr ?_
  rw [hclass]
  exact mentions_sampleRemoval

/-- What `diff_and_classify` finds when the text under `a` becomes a number. -/
def sampleTypeChange : DiffItem :=
  ⟨"a", some "string", some "integer", some false, some false, .breaking, "string->number"⟩

set_option maxRecDepth 4000 in
theorem mentions_sampleTypeChange :
    mentions breakingTokens (shownDiffs samplePyText [sampleTypeChange]) = false := by
  have htext : (shownDiffs samplePyText [sampleTypeChange]).toList =
      (diffChars samplePyText sampleTypeChange).map Char.toLower :=
    toList_shownDiffs_one (by decide)
  simp only [mentions, contains, htext]
  decide

/-- A text that becomes a number is BREAKING and not so for the review: its text has no breaking
word. -/
theorem review_verdict_type_changed : ¬∀ (py : PyText) (cfg : Config) (documentId createdAt : String)
    (call : TrackCall) (index : ℕ) (d : Drift) (p q : Payload),
    canonicalize p.json ≠ canonicalize q.json →
    diffAndClassify cfg.printable (canonicalize p.json) (canonicalize q.json) = .ok d.diffs →
    severityFromEvidence py [schemaDiffItem py index
      (schemaDiffDocument cfg documentId createdAt call d)] = severityOf d.classification := by
  intro h
  have hne : canonicalize (.obj [("a", .str "x")]) ≠ canonicalize (.obj [("a", .int 1)]) := by
    simp [canonicalize, canonicalizeMembers, sortByKey, Kind.leaf, CanonicalSchema.leaf, Kind.name]
  have hverdict := h samplePyText (sampleConfig true) "d" "t" sampleCall 1
    (sampleDrift [sampleTypeChange])
    ⟨[("a", .str "x")], by simp [Json.UniqueKeys, UniqueKeysMembers]⟩
    ⟨[("a", .int 1)], by simp [Json.UniqueKeys, UniqueKeysMembers]⟩ hne rfl
  have hnot : ∀ b : Bool, (if b then ReviewSeverity.risky else .compatible) ≠ .breaking := by decide
  rw [severityFromEvidence_singleton, itemBreaking_schemaDiffItem] at hverdict
  have hmentions : mentions breakingTokens
      (shownDiffs samplePyText (sampleDrift [sampleTypeChange]).diffs) = false :=
    mentions_sampleTypeChange
  rw [hmentions, if_neg Bool.false_ne_true] at hverdict
  exact hnot _ hverdict

end Driftgate.Review
