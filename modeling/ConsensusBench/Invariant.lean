import ConsensusBench.Cluster

namespace ConsensusBench

/-!
# The checks of the commit log

`CommitLog` of the source accumulates what nodes commit, and checks five properties of it.  Every
check is a loop, or two nested ones, over hash maps and sets; the order in which these are iterated
is a parameter.

* `checks_meet_definitions` — agreement, validity, integrity and termination are what they are said
  to be, in whatever order the loops run.
* `total_order_verdict` — total order is checked against the list of the first node only.
* `check_pass_iff` — the five checks pass together if, and only if, all honest nodes have the same
  list.
-/

/-- Outcome of a single invariant check. -/
inductive CheckResult where
  | pass
  | fail (message : String)
  deriving DecidableEq, Repr

/-- Result of checking safety invariants. -/
structure InvariantResult where
  agreement : CheckResult
  validity : CheckResult
  integrity : CheckResult
  termination : CheckResult
  totalOrder : CheckResult
  deriving DecidableEq, Repr

/-- A node as it is displayed. -/
def NodeId.display (node : NodeId) : String := s!"node-{node}"

/-- The bytes of a payload as they are printed. -/
def Payload.debug (payload : Payload) : String := toString (payload.data.map UInt8.toNat)

/-! ### Loops that return the first failure -/

namespace CheckResult

variable {α : Type}

/-- Run the body for the members of a list in order, and return at the first failure. -/
def forEach (l : List α) (body : α → CheckResult) : CheckResult :=
  match l with
  | [] => pass
  | a :: rest =>
    match body a with
    | pass => forEach rest body
    | fail message => fail message

/-- A loop of checks passes if they all do. -/
theorem forEach_eq_pass {l : List α} {body : α → CheckResult} :
    forEach l body = pass ↔ ∀ a ∈ l, body a = pass := by
  induction l with
  | nil => simp [forEach]
  | cons a l ih =>
    rw [forEach, List.forall_mem_cons, ← ih]
    cases h : body a with
    | pass => simp
    | fail message => simp

/-- A body that fails if a test does. -/
theorem ite_fail_eq_pass {p : Prop} [Decidable p] {message : String} :
    (if p then fail message else pass) = pass ↔ ¬ p := by
  by_cases h : p
  · simp [h]
  · simp [h]

/-- A body that is skipped if a test fails. -/
theorem ite_skip_eq_pass {p : Prop} [Decidable p] {r : CheckResult} :
    (if ¬ p then pass else r) = pass ↔ (p → r = pass) := by
  by_cases h : p
  · simp [h]
  · simp [h]

end CheckResult

/-! ### The checks -/

/-- The orders in which the checks iterate: the honest nodes, the recorded commits, and the map
    that `check_agreement` builds. -/
structure Iteration where
  nodes : IterationOrder NodeId Unit
  commits : IterationOrder NodeId (List CommittedEntry)
  payloads : IterationOrder SequenceNumber (List (NodeId × Payload))

namespace CommitLog

open CheckResult

/-- `CommitLog::record_commits`. -/
def recordCommits (log : CommitLog) (node : NodeId) (entries : List CommittedEntry) : CommitLog :=
  { log with commits := log.commits.extendAt node entries }

variable (order : Iteration) (log : CommitLog) (honestNodes : HashSet NodeId)

/-- Sequence by sequence, who has committed what: the first loop of `check_agreement`. -/
def seqPayloads : HashMap SequenceNumber (List (NodeId × Payload)) :=
  (order.commits.iter log.commits).foldl (fun seqPayloads ⟨node, entries⟩ =>
    if node ∉ honestNodes then seqPayloads
    else entries.foldl (fun seqPayloads entry =>
      seqPayloads.extendAt entry.sequence [(node, entry.payload)]) seqPayloads) ∅

/-- The second loop of `check_agreement`, for one sequence. -/
def checkPayloads (seq : SequenceNumber) : List (NodeId × Payload) → CheckResult
  | (firstNode, first) :: second :: rest =>
    forEach (second :: rest) fun (node, payload) =>
      if payload ≠ first then
        fail (s!"Agreement violated at sequence {seq}: node {firstNode.display} committed " ++
          s!"{first.debug} but node {node.display} committed {payload.debug}")
      else pass
  -- fewer than two commits of the sequence
  | _ => pass

/-- Agreement: no two honest nodes commit different payloads for the same sequence. -/
def checkAgreement : CheckResult :=
  forEach (order.payloads.iter (log.seqPayloads order honestNodes)) fun ⟨seq, payloads⟩ =>
    checkPayloads seq payloads

/-- The outer loop of `check_validity` and `check_integrity`. -/
def forEachHonest (body : NodeId → List CommittedEntry → CheckResult) : CheckResult :=
  forEach (order.commits.iter log.commits) fun ⟨node, entries⟩ =>
    if node ∉ honestNodes then pass else body node entries

/-- Validity: every committed value was originally proposed. -/
def checkValidity : CheckResult :=
  log.forEachHonest order honestNodes fun node entries =>
    forEach entries fun entry =>
      if entry.payload ∉ log.proposed then
        fail (s!"Validity violated: node {node.display} committed {entry.payload.debug} " ++
          "which was never proposed")
      else pass

/-- The inner loop of `check_integrity`, with the sequences seen so far. -/
def checkSeen (node : NodeId) (seen : Finset SequenceNumber) : List CommittedEntry → CheckResult
  | [] => pass
  | entry :: entries =>
    if entry.sequence ∈ seen then
      fail (s!"Integrity violated: node {node.display} committed sequence {entry.sequence} " ++
        "more than once")
    else checkSeen node (insert entry.sequence seen) entries

/-- Integrity: no sequence is committed twice on the same node. -/
def checkIntegrity : CheckResult :=
  log.forEachHonest order honestNodes fun node entries => checkSeen node ∅ entries

/-- Termination: all honest nodes committed the expected number of entries. -/
def checkTermination (expectedCount : ℕ) : CheckResult :=
  forEach (order.nodes.keys honestNodes) fun node =>
    let count := ((log.commits.lookup node).map List.length).getD 0
    if count ≠ expectedCount then
      fail (s!"Termination violated: honest node {node.display} committed {count} entries, " ++
        s!"expected {expectedCount}")
    else pass

/-- The honest nodes that have recorded commits, with the sequences of these in order. -/
def orderings : List (NodeId × List SequenceNumber) :=
  (order.nodes.keys honestNodes).filterMap fun node =>
    (log.commits.lookup node).map fun entries => (node, entries.map CommittedEntry.sequence)

/-- Total order: for every pair of honest nodes, committed entries appear in the same sequence
    order. -/
def checkTotalOrder : CheckResult :=
  match log.orderings order honestNodes with
  | (refNode, refOrder) :: second :: rest =>
    forEach (second :: rest) fun (node, nodeOrder) =>
      -- the sequences that both have committed, up to the length of the shorter list
      forEach (List.range (min refOrder.length nodeOrder.length)) fun i =>
        if refOrder.getD i 0 ≠ nodeOrder.getD i 0 then
          fail (s!"Total order violated: node {refNode.display} has sequence " ++
            s!"{refOrder.getD i 0} at position {i} but node {node.display} has sequence " ++
            s!"{nodeOrder.getD i 0} at that position")
        else pass
  -- fewer than two nodes
  | _ => pass

/-- `CommitLog::check`. -/
def check (expectedCount : ℕ) : InvariantResult where
  agreement := log.checkAgreement order honestNodes
  validity := log.checkValidity order honestNodes
  integrity := log.checkIntegrity order honestNodes
  termination := log.checkTermination order honestNodes expectedCount
  totalOrder := log.checkTotalOrder order honestNodes

/-! ### What is recorded -/

/-- The commits recorded for a node, none where there is no record of it. -/
def recorded (node : NodeId) : List CommittedEntry := log.commits.listAt node

/-- What is recorded for a node is appended to what was. -/
theorem recorded_recordCommits (node i : NodeId) (entries : List CommittedEntry) :
    (log.recordCommits node entries).recorded i =
      log.recorded i ++ if node = i then entries else [] :=
  HashMap.listAt_extendAt _ _ _ _

variable {log honestNodes}

/-- What is recorded for a node that is in the log. -/
theorem recorded_eq_of_lookup {i : NodeId} {entries : List CommittedEntry}
    (h : log.commits.lookup i = some entries) : log.recorded i = entries :=
  HashMap.listAt_eq_of_lookup h

variable (log honestNodes)

/-- A loop over what is recorded for the honest nodes, whose body accepts the empty record. -/
theorem forEachHonest_eq_pass {body : NodeId → List CommittedEntry → CheckResult}
    (hnil : ∀ i, body i [] = pass) : log.forEachHonest order honestNodes body = pass ↔
      ∀ i ∈ honestNodes, body i (log.recorded i) = pass := by
  rw [forEachHonest, forEach_eq_pass]
  constructor
  · intro h i hi
    cases hl : log.commits.lookup i with
    | none =>
      rw [recorded, HashMap.listAt, hl]
      exact hnil i
    | some entries =>
      rw [recorded_eq_of_lookup hl]
      exact ite_skip_eq_pass.mp (h ⟨i, entries⟩ ((order.commits.mem_iter _).mpr hl)) hi
  · rintro h ⟨node, entries⟩ hmem
    have hl := (order.commits.mem_iter _).mp hmem
    refine ite_skip_eq_pass.mpr fun hi => ?_
    rw [← recorded_eq_of_lookup hl]
    exact h node hi

/-! ### The four checks that meet their definitions -/

/-- **Validity** is checked exactly. -/
theorem checkValidity_eq_pass : log.checkValidity order honestNodes = pass ↔
    ∀ i ∈ honestNodes, ∀ e ∈ log.recorded i, e.payload ∈ log.proposed := by
  unfold checkValidity
  rw [forEachHonest_eq_pass order log honestNodes fun _ => rfl]
  apply forall₂_congr
  intro i _
  rw [forEach_eq_pass]
  simp only [ite_fail_eq_pass, not_not]

/-- The loop over one node passes if no sequence was seen or comes twice. -/
theorem checkSeen_eq_pass (node : NodeId) (seen : Finset SequenceNumber)
    (entries : List CommittedEntry) : checkSeen node seen entries = pass ↔
      (∀ e ∈ entries, e.sequence ∉ seen) ∧ (entries.map CommittedEntry.sequence).Nodup := by
  induction entries generalizing seen with
  | nil => simp [checkSeen]
  | cons e entries ih =>
    rw [checkSeen, List.map_cons, List.nodup_cons, List.forall_mem_cons]
    by_cases he : e.sequence ∈ seen
    · simp [he]
    · rw [if_neg he, ih]
      -- a later entry is new to `e` and to what was seen before
      have hmem : e.sequence ∉ entries.map CommittedEntry.sequence ↔
          ∀ e' ∈ entries, e'.sequence ≠ e.sequence := by
        simp
      simp only [Finset.mem_insert, not_or, he, not_false_eq_true, true_and, hmem]
      constructor
      · rintro ⟨hnew, hnodup⟩
        exact ⟨fun e' he' => (hnew e' he').2, fun e' he' => (hnew e' he').1, hnodup⟩
      · rintro ⟨hseen, hne, hnodup⟩
        exact ⟨fun e' he' => ⟨hne e' he', hseen e' he'⟩, hnodup⟩

/-- **Integrity** is checked exactly. -/
theorem checkIntegrity_eq_pass : log.checkIntegrity order honestNodes = pass ↔
    ∀ i ∈ honestNodes, ((log.recorded i).map CommittedEntry.sequence).Nodup := by
  unfold checkIntegrity
  rw [forEachHonest_eq_pass order log honestNodes fun _ => rfl]
  apply forall₂_congr
  intro i _
  rw [checkSeen_eq_pass]
  simp

/-- **Termination** is checked exactly. -/
theorem checkTermination_eq_pass (k : ℕ) : log.checkTermination order honestNodes k = pass ↔
    ∀ i ∈ honestNodes, (log.recorded i).length = k := by
  have hcount : ∀ i, ((log.commits.lookup i).map List.length).getD 0 = (log.recorded i).length := by
    intro i
    rw [recorded, HashMap.listAt]
    cases log.commits.lookup i with
    | none => rfl
    | some entries => rfl
  unfold checkTermination
  rw [forEach_eq_pass]
  simp only [ite_fail_eq_pass, not_not, hcount, order.nodes.mem_keys]

/-- The commits of the honest nodes in the order in which they are visited. -/
def honestCommits : List (NodeId × CommittedEntry) :=
  (order.commits.iter log.commits).flatMap fun ⟨node, entries⟩ =>
    if node ∉ honestNodes then [] else entries.map fun entry => (node, entry)

/-- The commits that are compared are those of honest nodes. -/
theorem mem_honestCommits {c : NodeId × CommittedEntry} :
    c ∈ log.honestCommits order honestNodes ↔ c.1 ∈ honestNodes ∧ c.2 ∈ log.recorded c.1 := by
  obtain ⟨i, e⟩ := c
  rw [honestCommits, List.mem_flatMap]
  constructor
  · rintro ⟨⟨node, entries⟩, hmem, hc⟩
    dsimp only at hc
    split at hc
    · exact absurd hc (by simp)
    · rename_i hnode
      obtain ⟨e', he', heq⟩ := List.mem_map.mp hc
      cases heq
      rw [recorded_eq_of_lookup ((order.commits.mem_iter _).mp hmem)]
      exact ⟨not_not.mp hnode, he'⟩
  · rintro ⟨hi, he⟩
    refine ⟨⟨i, log.recorded i⟩, (order.commits.mem_iter _).mpr ?_, ?_⟩
    · exact HashMap.lookup_of_mem_listAt he
    · have hnode : ¬ i ∉ honestNodes := not_not.mpr hi
      dsimp only
      rw [if_neg hnode]
      exact List.mem_map_of_mem he

/-- The two nested loops that fill the map are one loop over the commits. -/
theorem seqPayloads_eq : log.seqPayloads order honestNodes =
    (log.honestCommits order honestNodes).foldl
      (fun m c => m.extendAt c.2.sequence [(c.1, c.2.payload)]) ∅ := by
  rw [seqPayloads, honestCommits, List.flatMap, List.foldl_flatten, List.foldl_map]
  congr 1
  funext m ⟨node, entries⟩
  dsimp only
  split
  · rfl
  · rw [List.foldl_map]

/-- **The map that `check_agreement` builds** has the honest commits by their sequence. -/
theorem mem_seqPayloads {q : SequenceNumber} {i : NodeId} {p : Payload} :
    (i, p) ∈ (log.seqPayloads order honestNodes).listAt q ↔
      i ∈ honestNodes ∧ ⟨q, p⟩ ∈ log.recorded i := by
  have hempty : (∅ : HashMap SequenceNumber (List (NodeId × Payload))).listAt q = [] := rfl
  rw [seqPayloads_eq, HashMap.listAt_foldl_extendAt, hempty, List.nil_append, List.mem_map]
  constructor
  · rintro ⟨⟨i', q', p'⟩, hc, heq⟩
    obtain ⟨hc, hq⟩ := List.mem_filter.mp hc
    cases heq
    have hq' : q' = q := of_decide_eq_true hq
    rw [hq'] at hc
    exact (mem_honestCommits order log honestNodes).mp hc
  · rintro ⟨hi, he⟩
    refine ⟨(i, ⟨q, p⟩), List.mem_filter.mpr ⟨?_, by simp⟩, rfl⟩
    exact (mem_honestCommits order log honestNodes).mpr ⟨hi, he⟩

/-- All payloads are compared with the first one only, which is enough. -/
theorem checkPayloads_eq_pass (q : SequenceNumber) (payloads : List (NodeId × Payload)) :
    checkPayloads q payloads = pass ↔ ∀ c ∈ payloads, ∀ c' ∈ payloads, c.2 = c'.2 := by
  match payloads with
  | [] => simp [checkPayloads]
  | [c] => simp [checkPayloads]
  | first :: second :: rest =>
    rw [checkPayloads, forEach_eq_pass]
    constructor
    · intro h
      have hfirst : ∀ c ∈ first :: second :: rest, c.2 = first.2 := by
        intro c hc
        rcases List.mem_cons.mp hc with rfl | hc
        · rfl
        · exact not_not.mp (ite_fail_eq_pass.mp (h c hc))
      intro c hc c' hc'
      rw [hfirst c hc, hfirst c' hc']
    · intro h c hc
      refine ite_fail_eq_pass.mpr (not_not.mpr ?_)
      exact h c (List.mem_cons_of_mem _ hc) first List.mem_cons_self

/-- **Agreement** is checked exactly, whatever the order. -/
theorem checkAgreement_eq_pass : log.checkAgreement order honestNodes = pass ↔
    ∀ i ∈ honestNodes, ∀ j ∈ honestNodes, ∀ e ∈ log.recorded i, ∀ e' ∈ log.recorded j,
      e.sequence = e'.sequence → e.payload = e'.payload := by
  have hmem := fun q i p => mem_seqPayloads order log honestNodes (q := q) (i := i) (p := p)
  unfold checkAgreement
  generalize log.seqPayloads order honestNodes = m at hmem ⊢
  rw [forEach_eq_pass]
  constructor
  · rintro h i hi j hj ⟨q, p⟩ he ⟨q', p'⟩ he' hseq
    dsimp only at hseq
    subst hseq
    have hc := (hmem q i p).mpr ⟨hi, he⟩
    have hc' := (hmem q j p').mpr ⟨hj, he'⟩
    have hentry := (order.payloads.mem_iter m).mpr (HashMap.lookup_of_mem_listAt hc)
    have hpass : checkPayloads q (m.listAt q) = pass := h _ hentry
    exact (checkPayloads_eq_pass q _).mp hpass (i, p) hc (j, p') hc'
  · rintro h ⟨q, payloads⟩ hentry
    have hlist := HashMap.listAt_eq_of_lookup ((order.payloads.mem_iter m).mp hentry)
    refine (checkPayloads_eq_pass q payloads).mpr ?_
    rintro ⟨i, p⟩ hc ⟨j, p'⟩ hc'
    rw [← hlist] at hc hc'
    obtain ⟨hi, he⟩ := (hmem q i p).mp hc
    obtain ⟨hj, he'⟩ := (hmem q j p').mp hc'
    exact h i hi j hj ⟨q, p⟩ he ⟨q, p'⟩ he' rfl

/-- **Four checks meet their definitions**, in whatever order they iterate. -/
theorem checks_meet_definitions (k : ℕ) :
    (log.checkAgreement order honestNodes = pass ↔
      ∀ i ∈ honestNodes, ∀ j ∈ honestNodes, ∀ e ∈ log.recorded i, ∀ e' ∈ log.recorded j,
        e.sequence = e'.sequence → e.payload = e'.payload) ∧
    (log.checkValidity order honestNodes = pass ↔
      ∀ i ∈ honestNodes, ∀ e ∈ log.recorded i, e.payload ∈ log.proposed) ∧
    (log.checkIntegrity order honestNodes = pass ↔
      ∀ i ∈ honestNodes, ((log.recorded i).map CommittedEntry.sequence).Nodup) ∧
    (log.checkTermination order honestNodes k = pass ↔
      ∀ i ∈ honestNodes, (log.recorded i).length = k) :=
  ⟨checkAgreement_eq_pass order log honestNodes, checkValidity_eq_pass order log honestNodes,
    checkIntegrity_eq_pass order log honestNodes, checkTermination_eq_pass order log honestNodes k⟩

/-! ### Total order -/

/-- The sequences recorded for a node, in the order in which it committed them. -/
def sequences (i : NodeId) : List SequenceNumber := (log.recorded i).map CommittedEntry.sequence

/-- The shorter of the lists of any two honest nodes with recorded commits is a prefix of the
    longer. -/
def PairsOrdered : Prop :=
  ∀ i ∈ honestNodes, i ∈ log.commits → ∀ j ∈ honestNodes, j ∈ log.commits →
    log.sequences i <+: log.sequences j ∨ log.sequences j <+: log.sequences i

/-- Some list differs from that of the first node where both have a sequence, or no two lists
    differ behind the end of that of the first node. -/
def ReferenceDecides : Prop :=
  ∀ r ∈ (log.orderings order honestNodes).head?,
    (∃ x ∈ log.orderings order honestNodes, ∃ k, k < r.2.length ∧ k < x.2.length ∧
      r.2[k]? ≠ x.2[k]?) ∨
    ∀ x ∈ log.orderings order honestNodes, ∀ y ∈ log.orderings order honestNodes, ∀ k,
      r.2.length ≤ k → k < x.2.length → k < y.2.length → x.2[k]? = y.2[k]?

/-- Of two lists, one is a prefix of the other if they agree where both have a member. -/
theorem prefix_or_prefix_iff {α : Type} {xs ys : List α} : xs <+: ys ∨ ys <+: xs ↔
    ∀ k, k < xs.length → k < ys.length → xs[k]? = ys[k]? := by
  constructor
  · rintro (h | h) k hx hy
    · rw [List.prefix_iff_getElem?.mp h k hx, List.getElem?_eq_getElem hx]
    · rw [List.prefix_iff_getElem?.mp h k hy, List.getElem?_eq_getElem hy]
  · intro h
    rcases le_total xs.length ys.length with hle | hle
    · refine .inl (List.prefix_iff_getElem?.mpr fun k hk => ?_)
      rw [← h k hk (lt_of_lt_of_le hk hle), List.getElem?_eq_getElem hk]
    · refine .inr (List.prefix_iff_getElem?.mpr fun k hk => ?_)
      rw [h k (lt_of_lt_of_le hk hle) hk, List.getElem?_eq_getElem hk]

/-- The orderings that are compared are those of honest nodes in the log. -/
theorem mem_orderings {x : NodeId × List SequenceNumber} :
    x ∈ log.orderings order honestNodes ↔
      x.1 ∈ honestNodes ∧ x.1 ∈ log.commits ∧ x.2 = log.sequences x.1 := by
  obtain ⟨i, seqs⟩ := x
  rw [orderings, List.mem_filterMap]
  constructor
  · rintro ⟨node, hnode, h⟩
    obtain ⟨entries, hl, heq⟩ := Option.map_eq_some_iff.mp h
    cases heq
    refine ⟨(order.nodes.mem_keys _).mp hnode, AList.lookup_isSome.mp (by rw [hl]; rfl), ?_⟩
    rw [sequences, recorded_eq_of_lookup hl]
  · rintro ⟨hi, hc, hseqs⟩
    obtain ⟨entries, hl⟩ := Option.isSome_iff_exists.mp (AList.lookup_isSome.mpr hc)
    refine ⟨i, (order.nodes.mem_keys _).mpr hi, Option.map_eq_some_iff.mpr ⟨entries, hl, ?_⟩⟩
    dsimp only at hseqs
    rw [hseqs, sequences, recorded_eq_of_lookup hl]

/-- The pairs of honest nodes are the pairs of orderings. -/
theorem pairsOrdered_iff : log.PairsOrdered honestNodes ↔
    ∀ x ∈ log.orderings order honestNodes, ∀ y ∈ log.orderings order honestNodes,
      x.2 <+: y.2 ∨ y.2 <+: x.2 := by
  constructor
  · intro h x hx y hy
    obtain ⟨hi, hic, hx⟩ := (mem_orderings order log honestNodes).mp hx
    obtain ⟨hj, hjc, hy⟩ := (mem_orderings order log honestNodes).mp hy
    rw [hx, hy]
    exact h x.1 hi hic y.1 hj hjc
  · intro h i hi hic j hj hjc
    exact h (i, log.sequences i) ((mem_orderings order log honestNodes).mpr ⟨hi, hic, rfl⟩)
      (j, log.sequences j) ((mem_orderings order log honestNodes).mpr ⟨hj, hjc, rfl⟩)

/-- **What `check_total_order` checks**: the list of the first node against those of the
    others. -/
theorem checkTotalOrder_eq_pass : log.checkTotalOrder order honestNodes = pass ↔
    ∀ r ∈ (log.orderings order honestNodes).head?, ∀ x ∈ log.orderings order honestNodes,
      r.2 <+: x.2 ∨ x.2 <+: r.2 := by
  unfold checkTotalOrder
  match log.orderings order honestNodes with
  | [] => simp
  | [r] => simp
  | r :: second :: rest =>
    have hbody : ∀ x : NodeId × List SequenceNumber, (r.2 <+: x.2 ∨ x.2 <+: r.2) ↔
        ∀ k ∈ List.range (min r.2.length x.2.length), r.2.getD k 0 = x.2.getD k 0 := by
      intro x
      rw [prefix_or_prefix_iff]
      constructor
      · intro h k hk
        have hlt := lt_min_iff.mp (List.mem_range.mp hk)
        rw [List.getD_eq_getElem?_getD, List.getD_eq_getElem?_getD, h k hlt.1 hlt.2]
      · intro h k hr hx
        have hk := h k (List.mem_range.mpr (lt_min_iff.mpr ⟨hr, hx⟩))
        rw [List.getD_eq_getElem?_getD, List.getD_eq_getElem?_getD, List.getElem?_eq_getElem hr,
          List.getElem?_eq_getElem hx, Option.getD_some, Option.getD_some] at hk
        rw [List.getElem?_eq_getElem hr, List.getElem?_eq_getElem hx, hk]
    dsimp only
    rw [forEach_eq_pass]
    simp only [List.head?_cons, Option.mem_def, Option.some.injEq, forall_eq', hbody,
      forEach_eq_pass, ite_fail_eq_pass, not_not]
    rw [List.forall_mem_cons (a := r)]
    simp

/-- Lists that are comparable with one of them are comparable with each other, if and only if they
    agree behind the end of it. -/
theorem comparable_through_iff {os : List (NodeId × List SequenceNumber)}
    {r : NodeId × List SequenceNumber} (hr : r ∈ os) :
    ((∀ x ∈ os, r.2 <+: x.2 ∨ x.2 <+: r.2) ↔ ∀ x ∈ os, ∀ y ∈ os, x.2 <+: y.2 ∨ y.2 <+: x.2) ↔
      (∃ x ∈ os, ∃ k, k < r.2.length ∧ k < x.2.length ∧ r.2[k]? ≠ x.2[k]?) ∨
      ∀ x ∈ os, ∀ y ∈ os, ∀ k, r.2.length ≤ k → k < x.2.length → k < y.2.length →
        x.2[k]? = y.2[k]? := by
  have hconflict : (∃ x ∈ os, ∃ k, k < r.2.length ∧ k < x.2.length ∧ r.2[k]? ≠ x.2[k]?) ↔
      ¬ ∀ x ∈ os, r.2 <+: x.2 ∨ x.2 <+: r.2 := by
    simp only [prefix_or_prefix_iff, not_forall, exists_prop]
  rw [hconflict]
  constructor
  · intro hiff
    by_cases hall : ∀ x ∈ os, r.2 <+: x.2 ∨ x.2 <+: r.2
    · refine .inr fun x hx y hy k _ => ?_
      exact prefix_or_prefix_iff.mp (hiff.mp hall x hx y hy) k
    · exact .inl hall
  · intro hdecides
    refine ⟨fun hall x hx y hy => prefix_or_prefix_iff.mpr fun k hkx hky => ?_, fun h => h r hr⟩
    rcases hdecides with hno | hbehind
    · exact absurd hall hno
    · -- up to the end of the reference both agree with it
      rcases lt_or_ge k r.2.length with hk | hk
      · rw [← prefix_or_prefix_iff.mp (hall x hx) k hk hkx,
          prefix_or_prefix_iff.mp (hall y hy) k hk hky]
      · exact hbehind x hx y hy k hk hkx hky

/-- **The verdict on total order** is right if, and only if, the list of the first node is in
    conflict with another one, or long enough to tell all conflicts. -/
theorem total_order_verdict :
    (∀ order, (log.checkTotalOrder order honestNodes = pass ↔ log.PairsOrdered honestNodes) ↔
      log.ReferenceDecides order honestNodes) ∧
    ((∀ order, log.ReferenceDecides order honestNodes) → ∀ order order',
      log.checkTotalOrder order honestNodes = pass ↔
        log.checkTotalOrder order' honestNodes = pass) := by
  have hverdict : ∀ order, (log.checkTotalOrder order honestNodes = pass ↔
      log.PairsOrdered honestNodes) ↔ log.ReferenceDecides order honestNodes := by
    intro order
    rw [checkTotalOrder_eq_pass, pairsOrdered_iff order, ReferenceDecides]
    cases hhead : (log.orderings order honestNodes).head? with
    | none =>
      rw [List.head?_eq_none_iff.mp hhead]
      simp
    | some r =>
      simp only [Option.mem_def, Option.some.injEq, forall_eq']
      exact comparable_through_iff (List.mem_of_head? hhead)
  refine ⟨hverdict, fun hall order order' => ?_⟩
  rw [(hverdict order).mpr (hall order), (hverdict order').mpr (hall order')]

/-- Node `0` has committed sequence `1`, nodes `1` and `2` another sequence each behind it. -/
theorem short_reference_passes : ∃ log : CommitLog, ∃ honestNodes : HashSet NodeId,
    ∃ order order' : Iteration, ¬ log.PairsOrdered honestNodes ∧
      log.checkTotalOrder order honestNodes = pass ∧
      log.checkTotalOrder order' honestNodes ≠ pass := by
  refine ⟨(((({} : CommitLog).recordCommits 0 [⟨1, ⟨[0x70]⟩⟩]).recordCommits 1
      [⟨1, ⟨[0x70]⟩⟩, ⟨2, ⟨[0x71]⟩⟩]).recordCommits 2 [⟨1, ⟨[0x70]⟩⟩, ⟨3, ⟨[0x72]⟩⟩]),
    ((∅ : HashSet NodeId).insert 2 ()).insert 1 () |>.insert 0 (),
    ⟨.newest _ _, .newest _ _, .newest _ _⟩, ⟨.oldest _ _, .newest _ _, .newest _ _⟩, ?_,
    by decide, by decide⟩
  intro h
  exact absurd (h 1 (by decide) (by decide) 2 (by decide) (by decide)) (by decide)

/-! ### The five checks together -/

/-- Records with the same sequences, and one payload for each sequence, are the same. -/
theorem eq_of_sequences {l l' : List CommittedEntry}
    (hseq : l.map CommittedEntry.sequence = l'.map CommittedEntry.sequence)
    (hpay : ∀ e ∈ l, ∀ e' ∈ l', e.sequence = e'.sequence → e.payload = e'.payload) : l = l' := by
  induction l generalizing l' with
  | nil => exact (List.map_eq_nil_iff.mp hseq.symm).symm
  | cons e l ih =>
    cases l' with
    | nil => exact absurd hseq (by simp)
    | cons e' l' =>
      rw [List.map_cons, List.map_cons, List.cons.injEq] at hseq
      have hhead : e = e' := by
        have hp := hpay e List.mem_cons_self e' List.mem_cons_self hseq.1
        cases e
        cases e'
        simp_all
      have htail := ih hseq.2 fun a ha a' ha' =>
        hpay a (List.mem_cons_of_mem _ ha) a' (List.mem_cons_of_mem _ ha')
      rw [hhead, htail]

/-- If all honest nodes have `k` commits and total order passes, they have one list of
    sequences. -/
theorem sequences_eq {k : ℕ} (horder : log.checkTotalOrder order honestNodes = pass)
    (hlength : ∀ i ∈ honestNodes, (log.recorded i).length = k) {i j : NodeId}
    (hi : i ∈ honestNodes) (hj : j ∈ honestNodes) : log.sequences i = log.sequences j := by
  have hlen : ∀ i ∈ honestNodes, (log.sequences i).length = k := fun i hi => by
    rw [sequences, List.length_map, hlength i hi]
  rcases Nat.eq_zero_or_pos k with rfl | hpos
  · rw [List.length_eq_zero_iff.mp (hlen i hi), List.length_eq_zero_iff.mp (hlen j hj)]
  · -- everybody has a record, so everybody is compared with the first node
    have hmem : ∀ i ∈ honestNodes, (i, log.sequences i) ∈ log.orderings order honestNodes := by
      intro i hi
      refine (mem_orderings order log honestNodes).mpr ⟨hi, ?_, rfl⟩
      have hne : log.recorded i ≠ [] := List.ne_nil_of_length_pos (by rw [hlength i hi]; exact hpos)
      obtain ⟨e, he⟩ := List.exists_mem_of_ne_nil _ hne
      have hl : (log.commits.lookup i).isSome := by
        rw [HashMap.lookup_of_mem_listAt he]
        rfl
      exact AList.lookup_isSome.mp hl
    obtain ⟨r, hr⟩ : ∃ r, r ∈ (log.orderings order honestNodes).head? :=
      ⟨_, List.head_mem_head? (List.ne_nil_of_mem (hmem i hi))⟩
    have hrmem := (mem_orderings order log honestNodes).mp (List.mem_of_head? hr)
    have hall := (checkTotalOrder_eq_pass order log honestNodes).mp horder r hr
    have hsame : ∀ i ∈ honestNodes, log.sequences i = r.2 := by
      intro i hi
      have heq : r.2.length = (log.sequences i).length := by
        rw [hrmem.2.2, hlen r.1 hrmem.1, hlen i hi]
      rcases hall _ (hmem i hi) with h | h
      · exact (h.eq_of_length heq).symm
      · exact h.eq_of_length heq.symm
    rw [hsame i hi, hsame j hj]

/-- **All five checks pass** if, and only if, one list of as many commits as expected, with distinct
    sequences and proposed payloads, is what is recorded for every honest node. -/
theorem check_pass_iff (hne : ∃ i, i ∈ honestNodes) (k : ℕ) :
    log.check order honestNodes k = ⟨.pass, .pass, .pass, .pass, .pass⟩ ↔
      ∃ entries : List CommittedEntry, entries.length = k ∧
        (entries.map CommittedEntry.sequence).Nodup ∧
        (∀ e ∈ entries, e.payload ∈ log.proposed) ∧
        ∀ i ∈ honestNodes, log.recorded i = entries := by
  unfold check
  rw [InvariantResult.mk.injEq, checkAgreement_eq_pass, checkValidity_eq_pass,
    checkIntegrity_eq_pass, checkTermination_eq_pass]
  constructor
  · rintro ⟨hagree, hvalid, hintegrity, hlength, horder⟩
    obtain ⟨i₀, hi₀⟩ := hne
    refine ⟨log.recorded i₀, hlength i₀ hi₀, hintegrity i₀ hi₀, hvalid i₀ hi₀, fun i hi => ?_⟩
    exact eq_of_sequences (sequences_eq order log honestNodes horder hlength hi hi₀)
      (hagree i hi i₀ hi₀)
  · rintro ⟨entries, hlength, hnodup, hvalid, hall⟩
    refine ⟨fun i hi j hj e he e' he' hseq => ?_, fun i hi => ?_, fun i hi => ?_,
      fun i hi => ?_, ?_⟩
    · rw [hall i hi] at he
      rw [hall j hj] at he'
      rw [List.inj_on_of_nodup_map hnodup he he' hseq]
    · rw [hall i hi]
      exact hvalid
    · rw [hall i hi]
      exact hnodup
    · rw [hall i hi]
      exact hlength
    · refine (checkTotalOrder_eq_pass order log honestNodes).mpr fun r hr x hx => .inl ?_
      obtain ⟨hir, _, hr⟩ := (mem_orderings order log honestNodes).mp (List.mem_of_head? hr)
      obtain ⟨hix, _, hx⟩ := (mem_orderings order log honestNodes).mp hx
      rw [hr, hx, sequences, sequences, hall _ hir, hall _ hix]

/-- Two nodes with the same two commits. -/
theorem check_pass_two :
    ((((({} : CommitLog).recordProposal ⟨[0x70]⟩).recordProposal ⟨[0x71]⟩).recordCommits 0
      [⟨1, ⟨[0x70]⟩⟩]).recordCommits 1 [⟨1, ⟨[0x70]⟩⟩, ⟨2, ⟨[0x71]⟩⟩] |>.recordCommits 0
      [⟨2, ⟨[0x71]⟩⟩]).check
      ⟨.newest _ _, .newest _ _, .oldest _ _⟩ (((∅ : HashSet NodeId).insert 1 ()).insert 0 ()) 2 =
      ⟨.pass, .pass, .pass, .pass, .pass⟩ := by
  refine (check_pass_iff _ _ _ ⟨0, by decide⟩ 2).mpr
    ⟨[⟨1, ⟨[0x70]⟩⟩, ⟨2, ⟨[0x71]⟩⟩], rfl, by decide, by decide, ?_⟩
  intro i hi
  rcases (AList.mem_insert _).mp hi with rfl | hi
  · decide
  · rcases (AList.mem_insert _).mp hi with rfl | hi
    · decide
    · exact absurd hi (AList.notMem_empty i)

end CommitLog

end ConsensusBench
