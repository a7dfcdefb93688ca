import ConsensusBench.Lib.Ledger
import ConsensusBench.Network

namespace ConsensusBench

open AsyncNet

/-!
# The interface of a consensus node

What the three protocols have in common: the results of the `ConsensusNode` trait, and the
calls the cluster makes on a node.  A run of a cluster is a run of the message-passing
system whose parties are the nodes `0, …, n - 1`; a `Call` is one of the trait's methods
that the orchestrator calls, the other one, `handle_message`, is the delivery of a message.

`emitted` and `committedBy` read the committed entries off a run: an entry counts from the
step that appends it to the node's `committed` queue, whether `poll_committed` drained the
queue since or not.
-/

/-- Result of attempting to propose a value to the consensus protocol. -/
inductive ProposeResult where
  | accepted
  | notLeader (redirect : Option NodeId)
  deriving DecidableEq, Repr

/-- A value that was committed by the consensus protocol. -/
structure CommittedEntry where
  sequence : SequenceNumber
  payload : Payload
  deriving DecidableEq, Repr

/-- The calls the orchestrator makes on a node, besides delivering messages. -/
inductive Call where
  | propose (payload : Payload)
  | tick
  | pollCommitted

/-- All other nodes of a cluster of `clusterSize`, in order. -/
def peerIds (id : NodeId) (clusterSize : ℕ) : List NodeId :=
  (List.range clusterSize).filter fun pid => pid ≠ id

/-- The peers are the other nodes. -/
theorem mem_peerIds {id j : NodeId} {n : ℕ} : j ∈ peerIds id n ↔ j < n ∧ j ≠ id := by
  simp [peerIds]

/-- What is made for each peer is made for every other node. -/
theorem mem_map_peerIds {α : Type} {id : NodeId} {n : ℕ} {f : NodeId → α} {x : α} :
    x ∈ (peerIds id n).map f ↔ ∃ j, j < n ∧ j ≠ id ∧ x = f j := by
  rw [List.mem_map]
  constructor
  · rintro ⟨j, hj, rfl⟩
    obtain ⟨hlt, hne⟩ := mem_peerIds.mp hj
    exact ⟨j, hlt, hne, rfl⟩
  · rintro ⟨j, hlt, hne, rfl⟩
    exact ⟨j, mem_peerIds.mpr ⟨hlt, hne⟩, rfl⟩

/-- No peer is listed twice. -/
theorem nodup_peerIds (id : NodeId) (n : ℕ) : (peerIds id n).Nodup :=
  List.nodup_range.filter _

/-- A node has all other nodes as its peers. -/
theorem length_peerIds {id : NodeId} {n : ℕ} (h : id < n) : (peerIds id n).length = n - 1 := by
  have herase : peerIds id n = (List.range n).erase id := by
    rw [List.nodup_range.erase_eq_filter, peerIds]
    apply List.filter_congr
    intro pid _
    by_cases hid : pid = id
    · simp [hid]
    · simp [hid]
  rw [herase, List.length_erase_of_mem (List.mem_range.mpr h), List.length_range]

/-- At most one peer satisfies a property of one node only. -/
theorem countP_peerIds_le {id j : NodeId} {n : ℕ} {p : NodeId → Bool} (hp : ∀ k, p k → k = j) :
    (peerIds id n).countP p ≤ 1 := by
  have hle : (peerIds id n).countP p ≤ (peerIds id n).count j :=
    List.countP_mono_left fun k _ hk => beq_iff_eq.mpr (hp k hk)
  exact le_trans hle (List.nodup_iff_count_le_one.mp (nodup_peerIds id n) j)

/-! ### Reading commits off a run -/

/-- A node state with a queue of committed entries. -/
class CommitQueue (σ : Type) where
  committed : σ → List CommittedEntry

variable {σ : Type} [CommitQueue σ]

/-- One step of one node. -/
abbrev NodeStep (σ : Type) := Occurrence NodeId σ Call NetworkMessage

/-- The steps of a run, newest first. -/
abbrev History (σ : Type) := List (NodeStep σ)

/-- The entries a step appends to the queue of the node. -/
def emitted (o : NodeStep σ) : List CommittedEntry :=
  (CommitQueue.committed o.after).drop (CommitQueue.committed o.before).length

/-- Everything node `i` has committed over a history, oldest first. -/
def committedBy (h : History σ) (i : NodeId) : List CommittedEntry :=
  (h.reverse.filter fun o => o.node = i).flatMap emitted

/-- What a node has committed, it has committed in some step. -/
theorem mem_committedBy {h : History σ} {i : NodeId} {e : CommittedEntry} :
    e ∈ committedBy h i ↔ ∃ o ∈ h, o.node = i ∧ e ∈ emitted o := by
  simp [committedBy, and_assoc]

/-- The commits of a longer history. -/
theorem committedBy_cons (o : NodeStep σ) (h : History σ) (i : NodeId) :
    committedBy (o :: h) i = committedBy h i ++ if o.node = i then emitted o else [] := by
  unfold committedBy
  rw [List.reverse_cons, List.filter_append, List.flatMap_append]
  congr 1
  by_cases hi : o.node = i
  · simp [hi]
  · simp [hi]

/-- How often node `i` has committed `q` in the steps that start in a state satisfying `p`. -/
def timesCommitted (h : History σ) (i : NodeId) (q : SequenceNumber) (p : σ → Prop)
    [DecidablePred p] : ℕ :=
  ((h.filter fun o => o.node = i ∧ p o.before).flatMap emitted).countP fun e => e.sequence = q

/-- **Agreement**: the nodes that satisfy `honest` commit no two payloads for one sequence. -/
def Agreement (h : History σ) (honest : NodeId → Prop) : Prop :=
  ∀ i j, honest i → honest j → ∀ e ∈ committedBy h i, ∀ e' ∈ committedBy h j,
    e.sequence = e'.sequence → e.payload = e'.payload

/-- **Integrity**: no node commits a sequence twice. -/
def Integrity (h : History σ) : Prop :=
  ∀ i q, timesCommitted h i q (fun _ => True) ≤ 1

/-- A step that leaves the queue alone emits nothing. -/
theorem emitted_eq_nil {o : NodeStep σ}
    (h : CommitQueue.committed o.after = CommitQueue.committed o.before) : emitted o = [] := by
  rw [emitted, h, List.drop_length]

/-- A step that extends the queue emits the extension. -/
theorem emitted_eq {o : NodeStep σ} {es : List CommittedEntry}
    (h : CommitQueue.committed o.after = CommitQueue.committed o.before ++ es) :
    emitted o = es := by
  rw [emitted, h, List.drop_left]

/-- If every step extends the queue of its node or drains it, what is in the queue was
    committed. -/
theorem mem_committedBy_of_queue {S : System NodeId σ Call NetworkMessage}
    {ok : System.Guard NodeId σ Call NetworkMessage} {w : World NodeId σ Call NetworkMessage}
    (hinit : ∀ i, CommitQueue.committed (S.init i) = [])
    (hqueue : ∀ w o, S.Reach ok w → S.Fires w o →
      (∃ es, CommitQueue.committed o.after = CommitQueue.committed o.before ++ es) ∨
        CommitQueue.committed o.after = [])
    (hw : S.Reach ok w) :
    ∀ i, ∀ e ∈ CommitQueue.committed (w.nodes i), e ∈ committedBy w.history i := by
  have hold : ∀ {i e o} {h : History σ}, e ∈ committedBy h i → e ∈ committedBy (o :: h) i := by
    intro i e o h he
    rw [committedBy_cons]
    exact List.mem_append_left _ he
  refine hw.induct_party (I := fun i s h => ∀ e ∈ CommitQueue.committed s, e ∈ committedBy h i)
    ?_ ?_ fun i s o h _ ih e he => hold (ih e he)
  · intro i e he
    rw [hinit] at he
    exact absurd he (by simp)
  · intro w o hr ih _ hf e he
    -- the queue is drained by polling, which takes nothing from the history
    rcases hqueue w o hr hf with ⟨es, hes⟩ | hnil
    · rw [hes] at he
      rcases List.mem_append.mp he with he | he
      · exact hold (ih e he)
      · exact mem_committedBy.mpr ⟨o, List.mem_cons_self, rfl, by rwa [emitted_eq hes]⟩
    · rw [hnil] at he
      exact absurd he (by simp)

/-! ### The order of commits -/

/-- The sequences node `i` has committed, in the order of its commits. -/
def sequencesBy (h : History σ) (i : NodeId) : List SequenceNumber :=
  (committedBy h i).map CommittedEntry.sequence

/-- **Total order**: of any two nodes, one has committed a prefix of what the other has. -/
def TotalOrder (h : History σ) : Prop :=
  ∀ i j, sequencesBy h i <+: sequencesBy h j ∨ sequencesBy h j <+: sequencesBy h i

/-- The sequences are those of the committed entries. -/
theorem mem_sequencesBy {h : History σ} {i : NodeId} {q : SequenceNumber} :
    q ∈ sequencesBy h i ↔ ∃ e ∈ committedBy h i, e.sequence = q :=
  List.mem_map

/-- The sequences over a longer history. -/
theorem sequencesBy_cons (o : NodeStep σ) (h : History σ) (i : NodeId) :
    sequencesBy (o :: h) i = sequencesBy h i ++
      if o.node = i then (emitted o).map CommittedEntry.sequence else [] := by
  rw [sequencesBy, committedBy_cons, List.map_append]
  congr 1
  split <;> rfl

/-- A node that has committed a sequence at most once, and commits it now, did not before. -/
theorem not_mem_sequencesBy {o : NodeStep σ} {h : History σ} {p : σ → Prop} [DecidablePred p]
    (hp : ∀ o' ∈ o :: h, p o'.before) {e : CommittedEntry} (he : e ∈ emitted o)
    (hle : timesCommitted (o :: h) o.node e.sequence p ≤ 1) :
    e.sequence ∉ sequencesBy h o.node := by
  intro hmem
  obtain ⟨e', he', hseq⟩ := mem_sequencesBy.mp hmem
  obtain ⟨o', ho', hnode, heo'⟩ := mem_committedBy.mp he'
  have hnow : 0 < (emitted o).countP fun e' => e'.sequence = e.sequence :=
    List.countP_pos_iff.mpr ⟨e, he, by simp⟩
  have hbefore : 0 < timesCommitted h o.node e.sequence p := by
    refine List.countP_pos_iff.mpr ⟨e', List.mem_flatMap.mpr ⟨o', ?_, heo'⟩, by simp [hseq]⟩
    exact List.mem_filter.mpr ⟨ho', by simp [hnode, hp o' (List.mem_cons_of_mem _ ho')]⟩
  have hsum : timesCommitted (o :: h) o.node e.sequence p =
      (emitted o).countP (fun e' => e'.sequence = e.sequence) +
        timesCommitted h o.node e.sequence p := by
    simp only [timesCommitted]
    rw [List.filter_cons_of_pos (by simp [hp o List.mem_cons_self]), List.flatMap_cons,
      List.countP_append]
  omega

/-- What is not among `1, …, m`, and is `1` or comes behind one of them, is `m + 1`. -/
private theorem next_of_range' {q m : ℕ} (hfresh : ¬ (1 ≤ q ∧ q < 1 + m))
    (hprev : q = 1 ∨ 0 < q ∧ 1 ≤ q - 1 ∧ q - 1 < 1 + m) : q = 1 + m := by
  rcases hprev with rfl | ⟨hpos, hle, hlt⟩
  · omega
  · omega

/-- **A node that never commits ahead of the sequence before** has committed `1, 2, …` -/
theorem sequencesBy_eq_range' {h : History σ} (i : NodeId)
    (hone : ∀ o ∈ h, (emitted o).length ≤ 1)
    (hnext : ∀ o h₀, (o :: h₀) <:+ h → o.node = i → ∀ e ∈ emitted o,
      e.sequence ∉ sequencesBy h₀ i ∧
        (e.sequence = 1 ∨ 0 < e.sequence ∧ e.sequence - 1 ∈ sequencesBy h₀ i)) :
    sequencesBy h i = List.range' 1 (sequencesBy h i).length := by
  induction h with
  | nil => rfl
  | cons o h ih =>
    have hold := ih (fun o' ho' => hone o' (List.mem_cons_of_mem _ ho'))
      fun o' h₀ hs => hnext o' h₀ (hs.trans (List.suffix_cons o h))
    rw [sequencesBy_cons]
    by_cases hi : o.node = i
    · rw [if_pos hi]
      cases hem : emitted o with
      | nil => rw [List.map_nil, List.append_nil]; exact hold
      | cons e es =>
        have hlen := hone o List.mem_cons_self
        rw [hem, List.length_cons] at hlen
        obtain rfl : es = [] := List.eq_nil_of_length_eq_zero (by omega)
        obtain ⟨hfresh, hprev⟩ := hnext o h List.suffix_rfl hi e (by rw [hem]; simp)
        rw [hold, List.mem_range'_1] at hfresh
        rw [hold, List.mem_range'_1] at hprev
        -- the sequence is new, but the one before it is not
        have heq := next_of_range' hfresh hprev
        rw [List.map_singleton, List.length_append, List.length_singleton, List.range'_concat,
          ← hold, heq, Nat.one_mul]
    · rw [if_neg hi, List.append_nil]
      exact hold

/-- Nodes that commit `1, 2, …` do so in one order. -/
theorem totalOrder_of_range' {h : History σ}
    (hall : ∀ i, sequencesBy h i = List.range' 1 (sequencesBy h i).length) : TotalOrder h := by
  have hrange : ∀ m m' : ℕ, m ≤ m' → List.range' 1 m <+: List.range' 1 m' := by
    intro m m' hle
    obtain ⟨k, rfl⟩ := Nat.exists_eq_add_of_le hle
    rw [← List.range'_append_1]
    exact List.prefix_append _ _
  intro i j
  rw [hall i, hall j]
  rcases le_total (sequencesBy h i).length (sequencesBy h j).length with hle | hle
  · exact .inl (hrange _ _ hle)
  · exact .inr (hrange _ _ hle)

section Order

variable {S : System NodeId σ Call NetworkMessage}
variable {ok : System.Guard NodeId σ Call NetworkMessage} {w : World NodeId σ Call NetworkMessage}

/-- **Nodes that commit each sequence once, and after the one before, commit in one order.** -/
theorem totalOrder_of_next {p : σ → Prop} [DecidablePred p]
    (hone : ∀ w o, S.Reach ok w → S.Fires w o → (emitted o).length ≤ 1)
    (hle : ∀ w, S.Reach ok w → ∀ i q, timesCommitted w.history i q p ≤ 1)
    (hnext : ∀ w o, S.Reach ok w → ok w o.node o.cause → S.Fires w o → ∀ e ∈ emitted o,
      e.sequence = 1 ∨ 0 < e.sequence ∧ e.sequence - 1 ∈ sequencesBy w.history o.node)
    (hw : S.Reach ok w) (hp : ∀ o ∈ w.history, p o.before) : TotalOrder w.history := by
  refine totalOrder_of_range' fun i => sequencesBy_eq_range' i (fun o ho => ?_) ?_
  · obtain ⟨w₀, hr₀, _, hf₀, _⟩ := hw.fired o ho
    exact hone w₀ o hr₀ hf₀
  · rintro o h₀ hsuf rfl e he
    obtain ⟨w₀, hr₀, hok, hf₀, rfl⟩ := hw.fired_suffix o h₀ hsuf
    obtain ⟨w₁, hr₁, _, hhist⟩ := hr₀.next hok hf₀
    refine ⟨not_mem_sequencesBy (fun o' ho' => hp o' (hsuf.subset ho')) he ?_,
      hnext w₀ o hr₀ hok hf₀ e he⟩
    rw [← hhist]
    exact hle w₁ hr₁ o.node e.sequence

end Order

/-! ### The commits of a ledger -/

/-- What a step commits, as the ledgers of the protocols record it. -/
def commitsOf (o : NodeStep σ) : List (SequenceNumber × Payload) :=
  (emitted o).map fun e => (e.sequence, e.payload)

/-- The ledger has the entries as pairs. -/
theorem mem_commitsOf {o : NodeStep σ} {q : SequenceNumber} {p : Payload} :
    (q, p) ∈ commitsOf o ↔ ⟨q, p⟩ ∈ emitted o := by
  simp only [commitsOf, List.mem_map, Prod.mk.injEq]
  constructor
  · rintro ⟨⟨q', p'⟩, he, rfl, rfl⟩; exact he
  · intro he; exact ⟨_, he, rfl, rfl⟩

/-- A step that leaves the queue alone commits nothing. -/
theorem commitsOf_eq_nil {o : NodeStep σ}
    (h : CommitQueue.committed o.after = CommitQueue.committed o.before) : commitsOf o = [] := by
  rw [commitsOf, emitted_eq_nil h, List.map_nil]

/-- A step that appends an entry to the queue commits it. -/
theorem commitsOf_eq {o : NodeStep σ} {q : SequenceNumber} {p : Payload}
    (h : CommitQueue.committed o.after = CommitQueue.committed o.before ++ [⟨q, p⟩]) :
    commitsOf o = [(q, p)] := by
  rw [commitsOf, emitted_eq h, List.map_singleton]

/-- Counting in the ledger is counting entries. -/
private theorem countP_flatMap_commitsOf (h : History σ) (q : SequenceNumber) :
    (h.flatMap commitsOf).countP (fun e => e.1 = q) =
      (h.flatMap emitted).countP fun e => e.sequence = q := by
  induction h with
  | nil => rfl
  | cons o h ih =>
    rw [List.flatMap_cons, List.flatMap_cons, List.countP_append, List.countP_append, ih,
      commitsOf, List.countP_map]
    rfl

variable {V : Type} [LinearOrder V]
variable {L : Ledger NodeId σ Call NetworkMessage V SequenceNumber Payload}

/-- What a node commits in a view is what the ledger counts in it. -/
theorem timesCommitted_eq_commitCount (hL : L.commits = commitsOf) (h : History σ) (i : NodeId)
    (v : V) (q : SequenceNumber) :
    timesCommitted h i q (fun s => L.view s = v) = L.commitCount i v q h := by
  rw [timesCommitted, Ledger.commitCount, hL, countP_flatMap_commitsOf]

omit [LinearOrder V] in
/-- What a node commits in all is what the ledger counts in all. -/
theorem timesCommitted_eq_totalCount (hL : L.commits = commitsOf) (h : History σ) (i : NodeId)
    (q : SequenceNumber) :
    timesCommitted h i q (fun _ => True) = L.totalCount i q h := by
  rw [timesCommitted, Ledger.totalCount, hL, countP_flatMap_commitsOf]
  simp only [and_true]

/-- A step of a node that keeps a ledger commits at most one entry. -/
theorem length_emitted_le {S : System NodeId σ Call NetworkMessage}
    {ok : System.Guard NodeId σ Call NetworkMessage} (hL : L.commits = commitsOf)
    (hkept : L.Kept S ok) {w : World NodeId σ Call NetworkMessage} {o : NodeStep σ}
    (hr : S.Reach ok w) (hf : S.Fires w o) : (emitted o).length ≤ 1 := by
  have hone := (hkept.move w o hr hf).length_commits_le
  rwa [hL, commitsOf, List.length_map] at hone

omit [LinearOrder V] in
/-- Nodes agree if any two commits of one sequence are commits of one payload. -/
theorem agreement_of_commits (hL : L.commits = commitsOf) {h : History σ}
    (hall : ∀ o ∈ h, ∀ o' ∈ h, ∀ e ∈ L.commits o, ∀ e' ∈ L.commits o', e.1 = e'.1 → e.2 = e'.2)
    (honest : NodeId → Prop) : Agreement h honest := by
  intro i j _ _ e he e' he' hseq
  obtain ⟨o, ho, _, heo⟩ := mem_committedBy.mp he
  obtain ⟨o', ho', _, heo'⟩ := mem_committedBy.mp he'
  rw [hL] at hall
  exact hall o ho o' ho' (e.sequence, e.payload) (mem_commitsOf.mpr heo)
    (e'.sequence, e'.payload) (mem_commitsOf.mpr heo') hseq

omit [LinearOrder V] in
/-- Integrity is a matter of the ledger. -/
theorem integrity_of_totalCount (hL : L.commits = commitsOf) {h : History σ}
    (htotal : ∀ i q, L.totalCount i q h ≤ 1) : Integrity h := by
  intro i q
  rw [timesCommitted_eq_totalCount hL]
  exact htotal i q

end ConsensusBench
