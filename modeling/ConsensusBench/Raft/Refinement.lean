import ConsensusBench.Lib.Replication
import ConsensusBench.Raft.Log

namespace ConsensusBench

/-!
# Raft replicates a log

The nodes, in a run in which every step is `Checked`, move as the parties of `Replication` do.
An abstract state describes the nodes (`Describes`) and what their steps did (`Booked`).

* `Refines` — the relation between the abstract state and a world.
* `Refines.step` — every step of a node is matched by steps of its party.
* `refines` — so every reachable world is described by an abstract state with the invariants.

A message needs no abstract counterpart: what it says holds of the step that sent it, and
`Booked` keeps this up to date.
-/

open AsyncNet RaftNode Quorum
open Replication (Inv Certified Traced Runs Moves)

namespace Raft

/-- A step whose vote, whose success and whose entries are what the handlers take them for. -/
def Checked (s : RaftState) (c : Cause Call NetworkMessage) : Prop :=
  CountsCurrentVote s c ∧ RecordsCurrentSuccess s c ∧ CoversTail s c

instance (s : RaftState) : DecidablePred (Checked s) := fun _ =>
  inferInstanceAs (Decidable (_ ∧ _ ∧ _))

/-! ### Describing nodes and steps -/

section Relation

variable (n : ℕ) (a : Replication.State NodeId LogEntry)

/-- What a leader knows of itself and its peers. -/
structure Leads (i : NodeId) (s : RaftState) : Prop where
  lead : a.lead s.currentTerm = some (i, s.log)
  own : s.log.length ≤ a.ack (i, s.currentTerm)
  next : NextInLog s
  counted : ∀ j x, s.matchIndex.lookup j = some x → x ≤ a.ack (j, s.currentTerm)

/-- The abstract state describes node `i`. -/
structure Describes (i : NodeId) (s : RaftState) : Prop where
  now : a.now i = s.currentTerm
  log : a.log i = s.log
  commit_le : s.commitIndex ≤ s.log.length
  certified : Certified (Finset.range n) LogEntry.term a s.currentTerm (s.log.take s.commitIndex)
  candidate : s.role = .candidate →
    a.cand (i, s.currentTerm) = some s.log ∧ ∀ L, a.lead s.currentTerm ≠ some (i, L)
  leader : s.role = .leader → Leads a i s

/-- The successes that a step reports have been confirmed. -/
def Confirms (o : NodeStep RaftState) : Prop :=
  ∀ m ∈ o.sent, ∀ t mi, m.payload = .raft (.appendEntriesResponse t true mi) →
    ∃ L, a.lead t = some (m.target, L) ∧ mi ≤ a.ack (o.node, t)

/-- What the abstract state remembers of a step. -/
structure Booked (o : NodeStep RaftState) : Prop where
  stood : ∀ t, stands o = some t → a.cand (o.node, t) = some o.before.log
  led : o.after.role = .leader → NextInLog o.after ∧
    ∃ L, a.lead o.after.currentTerm = some (o.node, L) ∧ o.after.log <+: L
  commit_le : o.after.commitIndex ≤ o.after.log.length
  certified : Certified (Finset.range n) LogEntry.term a o.after.currentTerm
    (o.after.log.take o.after.commitIndex)
  confirms : Confirms a o

/-- The abstract state describes the nodes and what they did. -/
structure Refines (nodes : NodeId → RaftState) (hist : History RaftState) : Prop where
  inv : Inv (Finset.range n) LogEntry.term a
  indexed : ∀ t c L, a.lead t = some (c, L) → Indexed L
  voted : ∀ j t c, a.vote (j, t) = some c ↔ Voted hist j t c
  describes : ∀ i, Describes n a i (nodes i)
  booked : ∀ o ∈ hist, Booked n a o

end Relation

/-- The states agree on what an abstract state describes. -/
structure SameCore (s s' : RaftState) : Prop where
  currentTerm : s'.currentTerm = s.currentTerm
  log : s'.log = s.log
  commitIndex : s'.commitIndex = s.commitIndex
  role : s'.role = s.role
  nextIndex : s'.nextIndex = s.nextIndex
  matchIndex : s'.matchIndex = s.matchIndex

section Describing

variable {n : ℕ} {a a' : Replication.State NodeId LogEntry} {i j : NodeId} {s s' : RaftState}

theorem Describes.congr (h : Describes n a i s) (hs : SameCore s s') : Describes n a i s' := by
  obtain ⟨hterm, hlog, hcommit, hrole, hnext, hmatch⟩ := hs
  constructor
  · rw [hterm]; exact h.now
  · rw [hlog]; exact h.log
  · rw [hlog, hcommit]; exact h.commit_le
  · rw [hterm, hlog, hcommit]; exact h.certified
  · rw [hterm, hlog, hrole]; exact h.candidate
  · rw [hrole]
    intro hr
    obtain ⟨hlead, hown, hnxt, hcounted⟩ := h.leader hr
    constructor
    · rw [hterm, hlog]; exact hlead
    · rw [hterm, hlog]; exact hown
    · unfold NextInLog; rw [hnext, hlog]; exact hnxt
    · rw [hterm, hmatch]; exact hcounted

/-- A description survives moves that leave the node's term, log and leadership. -/
theorem Describes.mono (h : Describes n a i s) (hm : Moves j a a') (hnow : a'.now i = a.now i)
    (hlog : a'.log i = a.log i)
    (hlead : ∀ L, a'.lead s.currentTerm = some (i, L) → a.lead s.currentTerm = some (i, L)) :
    Describes n a' i s where
  now := hnow.trans h.now
  log := hlog.trans h.log
  commit_le := h.commit_le
  certified := h.certified.mono hm
  candidate hr := by
    obtain ⟨hc, hno⟩ := h.candidate hr
    exact ⟨hm.cand _ _ hc, fun L hl => hno L (hlead L hl)⟩
  leader hr := by
    obtain ⟨hl, hown, hnext, hcounted⟩ := h.leader hr
    refine ⟨?_, le_trans hown (hm.ack _), hnext,
      fun j x hx => le_trans (hcounted j x hx) (hm.ack _)⟩
    obtain ⟨L, hl', _⟩ := hm.lead _ _ _ hl
    rw [hl', ← hlead L hl', hl]

/-- A description survives the moves of other nodes. -/
theorem Describes.other (h : Describes n a i s) (hm : Moves j a a') (hij : i ≠ j) :
    Describes n a' i s :=
  h.mono hm (hm.now_of_ne i hij) (hm.log_of_ne i hij) fun L hl => hm.lead_of_ne _ i L hij hl

/-- A follower is described by its term, its log and what it has committed. -/
theorem Describes.of_follower (hnow : a.now i = s.currentTerm) (hlog : a.log i = s.log)
    (hcommit : s.commitIndex ≤ s.log.length)
    (hcert : Certified (Finset.range n) LogEntry.term a s.currentTerm (s.log.take s.commitIndex))
    (hr : s.role = .follower) : Describes n a i s where
  now := hnow
  log := hlog
  commit_le := hcommit
  certified := hcert
  candidate h := absurd (hr.symm.trans h) (by decide)
  leader h := absurd (hr.symm.trans h) (by decide)

/-- Recording what a peer has confirmed. -/
theorem Describes.record (h : Describes n a i s) (hinv : Inv (Finset.range n) LogEntry.term a)
    (hr : s.role = .leader) {k : NodeId} {mi : ℕ} (hack : mi ≤ a.ack (k, s.currentTerm)) :
    Describes n a i (recordMatch s k mi) := by
  obtain ⟨hlead, hown, hnext, hcounted⟩ := h.leader hr
  have hle : mi ≤ s.log.length := by
    by_cases h0 : a.ack (k, s.currentTerm) = 0
    · omega
    · obtain ⟨_, c, L, hl, hL⟩ := hinv.acked k _ h0
      rw [hlead, Option.some.injEq, Prod.mk.injEq] at hl
      rw [← hl.2] at hL
      exact le_trans hack hL
  refine ⟨h.now, h.log, h.commit_le, h.certified, h.candidate, fun _ =>
    ⟨hlead, hown, hnext.recordMatch hle, fun j x hx => ?_⟩⟩
  rcases HashMap.of_lookup_insert hx with ⟨rfl, rfl⟩ | ⟨_, hx⟩
  · exact hack
  · exact hcounted j x hx

/-- Retrying one entry earlier. -/
theorem Describes.retry (h : Describes n a i s) (hr : s.role = .leader) (k : NodeId) :
    Describes n a i (backOff s k) := by
  obtain ⟨hlead, hown, hnext, hcounted⟩ := h.leader hr
  have hback : NextInLog (backOff s k) := hnext.backOff
  unfold backOff at hback ⊢
  split
  · rename_i hgt
    rw [if_pos hgt] at hback
    exact ⟨h.now, h.log, h.commit_le, h.certified, h.candidate, fun _ =>
      ⟨hlead, hown, hback, hcounted⟩⟩
  · exact h

/-- Committing what is certified. -/
theorem Describes.commit (h : Describes n a i s) {k : ℕ} (hle : k ≤ s.log.length)
    (hcert : Certified (Finset.range n) LogEntry.term a s.currentTerm (s.log.take k))
    (q : List CommittedEntry) : Describes n a i { s with commitIndex := k, committed := q } where
  now := h.now
  log := h.log
  commit_le := hle
  certified := hcert
  candidate := h.candidate
  leader hr := by
    obtain ⟨hlead, hown, hnext, hcounted⟩ := h.leader hr
    exact ⟨hlead, hown, hnext, hcounted⟩

theorem Booked.mono {o : NodeStep RaftState} (h : Booked n a o) (hm : Moves j a a') :
    Booked n a' o where
  stood t ht := hm.cand _ _ (h.stood t ht)
  led hr := by
    obtain ⟨hnext, L, hl, hlog⟩ := h.led hr
    obtain ⟨L', hl', hL⟩ := hm.lead _ _ _ hl
    exact ⟨hnext, L', hl', hlog.trans hL⟩
  commit_le := h.commit_le
  certified := h.certified.mono hm
  confirms m hmem t mi hpl := by
    obtain ⟨L, hl, hack⟩ := h.confirms m hmem t mi hpl
    obtain ⟨L', hl', _⟩ := hm.lead _ _ _ hl
    exact ⟨L', hl', le_trans hack (hm.ack _)⟩

/-- Parts of an indexed log are indexed. -/
theorem Indexed.part {l l' : List LogEntry} (h : Indexed l) (hl : l' <+: l) : Indexed l' := by
  intro k e he
  obtain ⟨u, rfl⟩ := hl
  obtain ⟨hk, _⟩ := List.getElem?_eq_some_iff.mp he
  exact h k e (by rw [List.getElem?_append_left hk, he])

/-- A list whose prefixes are parts of indexed logs is indexed. -/
theorem indexed_of_traced (hidx : ∀ t c L, a.lead t = some (c, L) → Indexed L)
    {l : List LogEntry} (h : Traced LogEntry.term a l) : Indexed l := by
  intro k e he
  have hpre : l.take k ++ [e] <+: l := by
    rw [← take_succ_eq he]
    exact List.take_prefix _ _
  obtain ⟨c, L, hl, hL⟩ := h _ _ hpre
  apply (hidx _ c L hl).part hL k e
  obtain ⟨hk, _⟩ := List.getElem?_eq_some_iff.mp he
  rw [List.getElem?_append_right (by rw [List.length_take]; exact min_le_left _ _),
    List.length_take, min_eq_left (le_of_lt hk), Nat.sub_self]
  rfl

end Describing

/-! ### What received messages say -/

section Received

variable [Sha256] {n : ℕ} {rngs : NodeId → StdRng}
variable {ok : System.Guard NodeId RaftState Call NetworkMessage}
variable {w : World NodeId RaftState Call NetworkMessage}
variable {a a' : Replication.State NodeId LogEntry}
variable {i : NodeId} {c : Cause Call NetworkMessage} {s s' : RaftState} {out : List NetworkMessage}
variable {m : NetworkMessage} {t : ℕ} {l : NodeId} {pi pt : ℕ} {es : List LogEntry} {lc : ℕ}

/-- **Where an `AppendEntries` comes from**: its term has a leader, and the message was made
    from a part of that leader's log. -/
structure SentBy (n : ℕ) (a : Replication.State NodeId LogEntry) (k : NodeId) (t pi pt : ℕ)
    (es : List LogEntry) (lc : ℕ) (M L : List LogEntry) : Prop where
  lead : a.lead t = some (k, L)
  part : M <+: L
  prev_le : pi ≤ M.length
  prev : prevMatches M pi pt
  entries : es = M.drop pi
  commit_le : lc ≤ M.length
  certified : Certified (Finset.range n) LogEntry.term a t (M.take lc)

theorem Refines.sentBy (h : Refines n a w.nodes w.history) (hw : (system n {} rngs).Reach ok w)
    {o : NodeStep RaftState} (ho : o ∈ w.history) (hm : m ∈ o.sent)
    (hpl : m.payload = .raft (.appendEntries t l pi pt es lc)) :
    ∃ M L, SentBy n a o.node t pi pt es lc M L := by
  obtain ⟨w₀, _, _, hf, _⟩ := hw.fired o ho
  obtain ⟨j, x, rfl, hsaid⟩ := (effect_of_fires hf).sent_said hm
  cases hpl
  cases hsaid with
  | appendEntries _ hr hx =>
    have hbooked := h.booked o ho
    obtain ⟨hnext, L, hl, hlog⟩ := hbooked.led hr
    obtain ⟨rfl, hle, hprev, rfl, rfl⟩ := buildAppendEntries_inv hnext
      (congrArg NetworkMessage.payload hx)
    exact ⟨o.after.log, L, hl, hlog, hle, hprev, rfl, hbooked.commit_le, hbooked.certified⟩

/-- A success that a node receives has been confirmed to it. -/
theorem Refines.confirmed (h : Refines n a w.nodes w.history)
    (hw : (system n {} rngs).Reach ok w) {o : NodeStep RaftState}
    (hf : (system n {} rngs).Fires w o) (hc : o.cause = .recv m) {mi : ℕ}
    (hpl : m.payload = .raft (.appendEntriesResponse t true mi)) :
    ∃ L, a.lead t = some (o.node, L) ∧ mi ≤ a.ack (m.sender, t) := by
  obtain ⟨hdst, o₀, ho₀, hm, hsender, _⟩ := recv_source hw hf hc
  rw [← hdst, hsender]
  exact (h.booked o₀ ho₀).confirms m hm t mi hpl

omit [Sha256] in
/-- The log of a node matches every part of a leader's log. -/
theorem Refines.matching (h : Refines n a w.nodes w.history) {k : NodeId} {L M : List LogEntry}
    (hl : a.lead t = some (k, L)) (hM : M <+: L) (i : NodeId) :
    LogMatching (w.nodes i).log M := by
  intro p x y hx hy ht
  have hF := h.inv.traced i
  rw [(h.describes i).log] at hF
  exact hF.matching ((h.inv.traced_lead t k L hl).restrict hM) hx hy ht

omit [Sha256] in
/-- **Accepting entries** leaves the log, which is then a part of the leader's, or takes over
    a part of the leader's; and what the leader has committed of it is certified. -/
theorem Refines.accept_log (h : Refines n a w.nodes w.history) {k : NodeId}
    {M L : List LogEntry} (hsent : SentBy n a k t pi pt es lc M L)
    (hprev : prevMatches (w.nodes i).log pi pt)
    (htail : ¬ conflicts (w.nodes i).log es →
      ∀ e ∈ (w.nodes i).log.drop (pi + es.length), e.term = t) :
    ∃ log, es.foldlM appendEntry (w.nodes i).log = some log ∧ log <+: L ∧
      (log = (w.nodes i).log ∨ ¬ log <+: (w.nodes i).log) ∧
      Certified (Finset.range n) LogEntry.term a t (log.take (min lc log.length)) := by
  obtain ⟨hl, hM, hle, hprevM, rfl, hlc, hcert⟩ := hsent
  have hidx : Indexed M := (h.indexed t k L hl).part hM
  have hmatch := h.matching hl hM i
  have hfold := foldlM_appendEntry hidx hmatch hle (take_eq_of_prevMatches hmatch hprev hprevM)
  by_cases hpre : M <+: (w.nodes i).log
  · rw [if_pos hpre] at hfold
    refine ⟨_, hfold, ?_, .inl rfl, ?_⟩
    · -- an entry behind those of the message is of the leader's term, hence the leader's
      obtain ⟨u, hu⟩ := hpre
      rcases List.eq_nil_or_concat u with rfl | ⟨v, e, rfl⟩
      · rw [← hu, List.append_nil]
        exact hM
      · have hF := h.inv.traced i
        rw [(h.describes i).log] at hF
        rw [List.concat_eq_append, ← List.append_assoc] at hu
        have hlast : e ∈ (w.nodes i).log.drop (pi + (M.drop pi).length) := by
          rw [List.length_drop, Nat.add_sub_cancel' hle, ← hu, List.append_assoc, List.drop_left]
          exact List.mem_append_right v (List.mem_singleton_self e)
        have hterm := htail (not_conflicts hidx ⟨_, (List.append_assoc _ _ _).symm.trans hu⟩ pi)
          e hlast
        obtain ⟨c', L', hl', hL'⟩ := hF (M ++ v) e (by rw [hu])
        rw [hterm, hl, Option.some.injEq, Prod.mk.injEq] at hl'
        rw [← hu, hl'.2]
        exact hL'
    · obtain ⟨u, hu⟩ := hpre
      have hlen : lc ≤ (w.nodes i).log.length := by
        rw [← hu, List.length_append]
        omega
      rw [min_eq_left hlen, ← hu, List.take_append_of_le_length hlc]
      exact hcert
  · rw [if_neg hpre] at hfold
    refine ⟨M, hfold, hM, .inr hpre, ?_⟩
    rw [min_eq_left hlc]
    exact hcert

omit [Sha256] in
/-- **A conflict at the entry before the new ones** is one with the leader's log. -/
theorem SentBy.conflict_log {k : NodeId} {M L : List LogEntry}
    (hsent : SentBy n a k t pi pt es lc M L) (hpi : 0 < pi) {e : LogEntry} (hne : e.term ≠ pt) :
    ∃ y, L[pi - 1]? = some y ∧ e.term ≠ y.term := by
  obtain ⟨y, hy, hyt⟩ := hsent.prev.resolve_left (by omega)
  obtain ⟨u, rfl⟩ := hsent.part
  obtain ⟨hlt, _⟩ := List.getElem?_eq_some_iff.mp hy
  exact ⟨y, by rw [List.getElem?_append_left hlt, hy], by rwa [hyt]⟩

omit [Sha256] in
/-- **What the leader may commit is chosen**: it ends with an entry of the leader's term, and a
    majority has confirmed it. -/
theorem Describes.chosen_next (h : Describes n a i s) (hr : s.role = .leader)
    (hpeers : IndexesPeers n i s) (hi : i < n) {k : ℕ}
    (hk : (node n i).nextCommit s = some k) :
    Replication.Stands LogEntry.term a s.currentTerm (s.log.take k) ∧
      Replication.Chosen (Finset.range n) a s.currentTerm (s.log.take k).length := by
  obtain ⟨hlt, hle, ⟨e, he, hterm⟩, hq⟩ := nextCommit_eq_some hk
  obtain ⟨hlead, hown, _, hcounted⟩ := h.leader hr
  obtain ⟨V, hcard, hV⟩ := exists_replicas s k
  have hmem : ∀ j ∈ V, j < n ∧ j ≠ i := by
    intro j hj
    obtain ⟨x, hx, _⟩ := hV j hj
    exact mem_peerIds.mp (hpeers j ⟨x, .inr hx⟩)
  have hlen : (s.log.take k).length = k := by rw [List.length_take, min_eq_left hle]
  constructor
  · refine ⟨i, s.log, hlead, List.take_prefix _ _, s.log.take (k - 1), e, ?_, hterm⟩
    rw [← take_succ_eq he, Nat.sub_add_cancel (by omega)]
  · rw [hlen]
    refine ⟨insert i V, ⟨fun j hj => ?_, ?_⟩, fun j hj => ?_⟩
    · rcases Finset.mem_insert.mp hj with rfl | hj
      · exact Finset.mem_range.mpr hi
      · exact Finset.mem_range.mpr (hmem j hj).1
    · have hmaj : n / 2 + 1 ≤ replicatedOn s k := hq
      rw [Finset.card_range, Finset.card_insert_of_notMem fun hin => (hmem i hin).2 rfl]
      omega
    · rcases Finset.mem_insert.mp hj with rfl | hj
      · exact le_trans hle hown
      · obtain ⟨x, hx, hkx⟩ := hV j hj
        exact le_trans hkx (hcounted j x hx)

omit [Sha256] in
theorem Describes.certified_next (h : Describes n a i s) (hr : s.role = .leader)
    (hpeers : IndexesPeers n i s) (hi : i < n) {k : ℕ}
    (hk : (node n i).nextCommit s = some k) :
    Certified (Finset.range n) LogEntry.term a s.currentTerm (s.log.take k) := by
  obtain ⟨hstands, hchosen⟩ := h.chosen_next hr hpeers hi hk
  exact .inr ⟨s.currentTerm, le_refl _, s.log.take k, hstands, hchosen, List.prefix_refl _⟩

omit [Sha256] in
/-- **Accepting entries keeps what the node has committed.** -/
theorem Describes.kept_accept (h : Describes n a i s) (hinv : Inv (Finset.range n) LogEntry.term a)
    (ht : s.currentTerm ≤ t) {k : NodeId} {log L : List LogEntry} (hl : a.lead t = some (k, L))
    (hlog : log <+: L) (hsame : log = s.log ∨ ¬ log <+: s.log) :
    s.log.take s.commitIndex <+: log := by
  rcases hsame with rfl | hno
  · exact List.take_prefix _ _
  · exact Replication.prefix_of_replace (hinv.certified_lead h.certified ht hl)
      (List.take_prefix _ _) hlog hno

omit [Sha256] in
/-- **Cutting the log keeps what the node has committed.** -/
theorem Describes.kept_conflict (h : Describes n a i s)
    (hinv : Inv (Finset.range n) LogEntry.term a) (ht : s.currentTerm ≤ t) {k : NodeId}
    {L : List LogEntry} (hl : a.lead t = some (k, L)) {p : ℕ} {x y : LogEntry}
    (hx : s.log[p]? = some x) (hy : L[p]? = some y) (hne : x.term ≠ y.term) :
    s.log.take s.commitIndex <+: s.log.take p :=
  Replication.prefix_of_truncate (hinv.certified_lead h.certified ht hl) (List.take_prefix _ _)
    hx hy fun heq => hne (by rw [heq])

omit [Sha256] in
/-- A log that keeps what is committed is long enough for the commit index. -/
theorem take_of_kept {log log' : List LogEntry} {k : ℕ} (hk : k ≤ log.length)
    (h : log.take k <+: log') : k ≤ log'.length ∧ log'.take k = log.take k := by
  have hlen : (log.take k).length = k := by rw [List.length_take, min_eq_left hk]
  constructor
  · rw [← hlen]
    exact h.length_le
  · rw [List.prefix_iff_eq_take.mp h, hlen]

end Received

/-! ### Every step is matched -/

section Step

variable [Sha256] {n : ℕ} {rngs : NodeId → StdRng}
variable {ok : System.Guard NodeId RaftState Call NetworkMessage}
variable {w : World NodeId RaftState Call NetworkMessage}
variable {a a' : Replication.State NodeId LogEntry}

omit [Sha256] in
/-- **A step is matched** by a run of its party to a state that describes the node, books the
    vote, the log and the confirmation of the step, and has indexed leaders' logs only. -/
theorem Refines.advance (h : Refines n a w.nodes w.history) (o : NodeStep RaftState)
    (hrun : Runs (Finset.range n) LogEntry.term o.node a a')
    (hindexed : ∀ t c L, a'.lead t = some (c, L) → Indexed L)
    (hvote : ∀ j t c, a'.vote (j, t) = some c →
      a.vote (j, t) = some c ∨ (j = o.node ∧ votes o = some (t, c)))
    (hvotes : ∀ t c, votes o = some (t, c) → a'.vote (o.node, t) = some c)
    (hstood : ∀ t, stands o = some t → a'.cand (o.node, t) = some o.before.log)
    (hdescribes : Describes n a' o.node o.after) (hconfirms : Confirms a' o) :
    Refines n a' (Function.update w.nodes o.node o.after) (o :: w.history) := by
  obtain ⟨hinv, hmoves⟩ := h.inv.run hrun
  refine ⟨hinv, hindexed, fun j t c => ⟨fun hv => ?_, ?_⟩, fun j => ?_, fun o' ho' => ?_⟩
  · rcases hvote j t c hv with hold | ⟨rfl, hnew⟩
    · exact ((h.voted j t c).mp hold).cons o
    · exact ⟨o, List.mem_cons_self, rfl, hnew⟩
  · rintro ⟨o', ho', rfl, hv⟩
    rcases List.mem_cons.mp ho' with rfl | hold
    · exact hvotes t c hv
    · exact hmoves.vote _ _ ((h.voted _ t c).mpr ⟨o', hold, rfl, hv⟩)
  -- the other nodes are described as before, since a move leaves their part alone
  · by_cases hj : j = o.node
    · subst hj
      rw [Function.update_self]
      exact hdescribes
    · rw [Function.update_of_ne hj]
      exact (h.describes j).other hmoves hj
  · rcases List.mem_cons.mp ho' with rfl | hold
    · refine ⟨hstood, fun hr => ?_, hdescribes.commit_le, hdescribes.certified, hconfirms⟩
      obtain ⟨hlead, _, hnext, _⟩ := hdescribes.leader hr
      exact ⟨hnext, o'.after.log, hlead, List.prefix_refl _⟩
    · exact (h.booked o' hold).mono hmoves

omit [Sha256] in
/-- A step that does not vote is matched by a run that leaves the votes. -/
theorem Refines.advance_voteless (h : Refines n a w.nodes w.history) {o : NodeStep RaftState}
    (hv : votes o = none) (hrun : Runs (Finset.range n) LogEntry.term o.node a a')
    (hindexed : ∀ t c L, a'.lead t = some (c, L) → Indexed L) (hvote : a'.vote = a.vote)
    (hdescribes : Describes n a' o.node o.after) (hconfirms : Confirms a' o) :
    Refines n a' (Function.update w.nodes o.node o.after) (o :: w.history) := by
  refine h.advance o hrun hindexed (fun j t c hvc => .inl (by rwa [← hvote])) ?_ ?_ hdescribes
    hconfirms
  · intro t c hvc
    exact absurd (hv.symm.trans hvc) (by simp)
  · intro t ht
    exact absurd (hv.symm.trans (votes_eq_some.mpr (.inl ⟨ht, rfl⟩))) (by simp)

omit [Sha256] in
/-- The leaders' logs stay indexed as one of them is replaced by an indexed log. -/
theorem Refines.indexed_update (h : Refines n a w.nodes w.history) {t : ℕ} {c : NodeId}
    {L : List LogEntry} (hL : Indexed L) : ∀ t' c' L',
      Function.update a.lead t (some (c, L)) t' = some (c', L') → Indexed L' := by
  intro t' c' L' hl
  by_cases ht : t' = t
  · rw [ht, Function.update_self, Option.some.injEq, Prod.mk.injEq] at hl
    rw [← hl.2]
    exact hL
  · rw [Function.update_of_ne ht] at hl
    exact h.indexed t' c' L' hl

omit [Sha256] in
/-- A step that reports no success confirms nothing. -/
theorem confirms_of_not_success {o : NodeStep RaftState}
    (h : ∀ m ∈ o.sent, ∀ t mi, m.payload ≠ .raft (.appendEntriesResponse t true mi)) :
    Confirms a o :=
  fun m hm t mi hpl => absurd hpl (h m hm t mi)

omit [Sha256] in
theorem broadcast_not_success (self : RaftNode) (s : RaftState) :
    ∀ m ∈ self.broadcastAppendEntries s, ∀ t mi,
      m.payload ≠ .raft (.appendEntriesResponse t true mi) := by
  intro m hm t mi hpl
  obtain ⟨j, _, rfl⟩ := List.mem_map.mp hm
  exact absurd hpl (by simp [buildAppendEntries, msgTo])

variable {i : NodeId} {c : Cause Call NetworkMessage} {s s' : RaftState} {out : List NetworkMessage}

omit [Sha256] in
/-- An entry of an updated record is an old one or the new one. -/
theorem eq_of_update {x k : NodeId × ℕ} {f : NodeId × ℕ → Option NodeId} {v c : NodeId}
    (h : Function.update f k (some v) x = some c) : f x = some c ∨ (x = k ∧ v = c) := by
  by_cases hx : x = k
  · subst hx
    rw [Function.update_self, Option.some.injEq] at h
    exact .inr ⟨rfl, h⟩
  · rw [Function.update_of_ne hx] at h
    exact .inl h

omit [Sha256] in
/-- Standing for election. -/
theorem Refines.step_stand (h : Refines n a w.nodes w.history) (hs : s = w.nodes i) {t : ℕ}
    (ht : stands ⟨i, c, s, s', out⟩ = some t) (heff : Effect (node n i) s c s' out) :
    ∃ a', Refines n a' (Function.update w.nodes i s') (⟨i, c, s, s', out⟩ :: w.history) := by
  have hvotes : votes ⟨i, c, s, s', out⟩ = some (t, i) := votes_eq_some.mpr (.inl ⟨ht, rfl⟩)
  obtain ⟨hc, hr, h0, rfl⟩ := stands_eq_some.mp ht
  dsimp only at hc hr h0 ht hvotes ⊢
  rw [hc] at heff
  obtain ⟨hs', hout⟩ := heff.stand_inv hr h0
  have hd := h.describes i
  rw [← hs] at hd
  let a' : Replication.State NodeId LogEntry :=
    { a with
      now := Function.update a.now i (a.now i + 1)
      vote := Function.update a.vote (i, a.now i + 1) (some i)
      cand := Function.update a.cand (i, a.now i + 1) (some (a.log i)) }
  have hrun : Runs (Finset.range n) LogEntry.term i a a' := .single .stand
  obtain ⟨hinv, hmoves⟩ := h.inv.run hrun
  have hvote : a'.vote = Function.update a.vote (i, s.currentTerm + 1) (some i) := by
    rw [← hd.now]
  have hcand : a'.cand (i, s.currentTerm + 1) = some s.log := by
    rw [← hd.now, ← hd.log]
    exact Function.update_self ..
  refine ⟨a', h.advance ⟨i, c, s, s', out⟩ hrun h.indexed ?_ ?_ ?_ ?_ ?_⟩
  · intro j t c hv
    rw [hvote] at hv
    rcases eq_of_update hv with hold | ⟨hkey, rfl⟩
    · exact .inl hold
    · rw [Prod.mk.injEq] at hkey
      exact .inr ⟨hkey.1, by rw [hvotes, hkey.2]⟩
  · intro t c hv
    rw [hvotes, Option.some.injEq, Prod.mk.injEq] at hv
    obtain ⟨rfl, rfl⟩ := hv
    rw [hvote]
    exact Function.update_self ..
  · intro t ht'
    rw [ht, Option.some.injEq] at ht'
    rw [← ht']
    exact hcand
  · rw [hs']
    refine ⟨?_, hd.log, hd.commit_le, ?_, fun _ => ⟨hcand, fun L hl => ?_⟩, fun hl => ?_⟩
    · exact (Function.update_self ..).trans (congrArg (· + 1) hd.now)
    · exact (hd.certified.mono hmoves).mono_term (Nat.le_succ _)
    · -- a leader of the new term would have stood in it before
      obtain ⟨V, hV, hvoted⟩ := h.inv.elected _ i L hl
      obtain ⟨j, hj, _⟩ := hV.exists_common hV
      obtain ⟨_, L', hc'⟩ := h.inv.voted j _ i (hvoted j hj)
      have hle := (h.inv.cand_lt i _ L' hc').1
      rw [hd.now] at hle
      exact absurd hle (Nat.not_succ_le_self _)
    · exact absurd hl (by simp [stand, resetElectionTimeout])
  · apply confirms_of_not_success
    intro m hm t mi hpl
    dsimp only at hm
    rw [hout] at hm
    obtain ⟨j, _, rfl⟩ := List.mem_map.mp hm
    exact absurd hpl (by simp [msgTo])

/-- Granting a vote. -/
theorem Refines.step_grant (h : Refines n a w.nodes w.history)
    (hw : (system n {} rngs).Reach ok w)
    (hf : (system n {} rngs).Fires w ⟨i, c, s, s', out⟩) {t : ℕ} {x : NodeId}
    (hg : grants ⟨i, c, s, s', out⟩ = some (t, x)) :
    ∃ a', Refines n a' (Function.update w.nodes i s') (⟨i, c, s, s', out⟩ :: w.history) := by
  have hvotes : votes ⟨i, c, s, s', out⟩ = some (t, x) := votes_eq_some.mpr (.inr hg)
  have heff := effect_of_fires hf
  have hs := hf.before_eq
  obtain ⟨m, li, lt, hc, hm, hcan⟩ := grants_eq_some.mp hg
  obtain ⟨_, _, _, o₀, ho₀, rfl, hstood, rfl, rfl⟩ := asked_by hw hf hc hm
  dsimp only at heff hs hc hcan
  rw [hc] at heff
  obtain ⟨hs', hout⟩ : s' = resetElectionTimeout { observe s t with votedFor := some o₀.node } ∧
      out = [(node n i).msgTo m.sender (.raft (.requestVoteResponse t true))] := by
    rcases heff.requestVote_inv hm with ⟨_, heq⟩ | ⟨hno, _⟩
    · exact heq
    · exact absurd hcan hno
  have hd := h.describes i
  rw [← hs] at hd
  obtain ⟨hle, hfree, hup⟩ := hcan
  have hunvoted : a.vote (i, t) = none ∨ a.vote (i, t) = some o₀.node := by
    cases hv : a.vote (i, t) with
    | none => exact .inl rfl
    | some c' =>
      -- a vote of the term is the one recorded, and the recorded one allows this one
      obtain ⟨o₁, ho₁, hnode, hv₁⟩ := (h.voted i t c').mp hv
      obtain ⟨hle₁, hrec⟩ := voted_recorded hw o₁ ho₁ t c' hv₁
      rw [hnode, ← hs] at hle₁ hrec
      have hsame : t = s.currentTerm := le_antisymm hle₁ hle
      have hobs : observe s t = s := if_neg (by omega)
      rw [hobs, hrec hsame] at hfree
      exact .inr (hfree.resolve_left (by simp))
  let a' : Replication.State NodeId LogEntry :=
    { a.raise i t with vote := Function.update a.vote (i, t) (some o₀.node) }
  have hrun : Runs (Finset.range n) LogEntry.term i a a' := by
    refine Runs.grant (by rw [hd.now]; exact hle) hunvoted ((h.booked o₀ ho₀).stood t hstood) ?_
    rw [hd.log]
    exact hup
  obtain ⟨hinv, hmoves⟩ := h.inv.run hrun
  have hnow : a'.now i = t := a.raise_now i t
  refine ⟨a', h.advance ⟨i, c, s, s', out⟩ hrun h.indexed ?_ ?_ ?_ ?_ ?_⟩
  · intro j t' c' hv
    rcases eq_of_update hv with hold | ⟨hkey, rfl⟩
    · exact .inl hold
    · rw [Prod.mk.injEq] at hkey
      exact .inr ⟨hkey.1, by rw [hvotes, hkey.2]⟩
  · intro t' c' hv
    rw [hvotes, Option.some.injEq, Prod.mk.injEq] at hv
    obtain ⟨rfl, rfl⟩ := hv
    exact Function.update_self ..
  · intro t' ht'
    exact absurd (hc.symm.trans (stands_eq_some.mp ht').1) (by simp)
  · rw [hs']
    by_cases hlt : s.currentTerm < t
    · have hobs : observe s t = { s with
          currentTerm := t, role := .follower, votedFor := none, leaderId := none } := if_pos hlt
      rw [hobs]
      exact .of_follower hnow hd.log hd.commit_le
        ((hd.certified.mono hmoves).mono_term (le_of_lt hlt)) rfl
    · have hobs : observe s t = s := if_neg hlt
      rw [hobs]
      have hkept : Describes n a' i s := by
        refine hd.mono hmoves ?_ rfl fun L hl => hl
        rw [hnow, hd.now]
        omega
      exact hkept.congr ⟨rfl, rfl, rfl, rfl, rfl, rfl⟩
  · apply confirms_of_not_success
    intro m' hm' t' mi hpl
    dsimp only at hm'
    rw [hout, List.mem_singleton] at hm'
    rw [hm'] at hpl
    exact absurd hpl (by simp [msgTo])

omit [Sha256] in
/-- A leader appends what is proposed. -/
theorem Refines.step_append (h : Refines n a w.nodes w.history) (hd : Describes n a i s)
    (hr : s.role = .leader) (p : Payload)
    (hv : votes ⟨i, c, s, { s with
      log := s.log ++ [⟨s.currentTerm, s.log.length + 1, p⟩] }, out⟩ = none)
    (hnone : ∀ m ∈ out, ∀ t mi, m.payload ≠ .raft (.appendEntriesResponse t true mi)) :
    ∃ a', Refines n a' (Function.update w.nodes i { s with
      log := s.log ++ [⟨s.currentTerm, s.log.length + 1, p⟩] })
      (⟨i, c, s, { s with log := s.log ++ [⟨s.currentTerm, s.log.length + 1, p⟩] }, out⟩ ::
        w.history) := by
  obtain ⟨hlead, hown, hnext, hcounted⟩ := hd.leader hr
  -- the abstract leader appends the same entry, and acknowledges it itself
  let e : LogEntry := ⟨s.currentTerm, s.log.length + 1, p⟩
  let a' : Replication.State NodeId LogEntry :=
    { a with
      log := Function.update a.log i (a.log i ++ [e])
      lead := Function.update a.lead (a.now i) (some (i, a.log i ++ [e]))
      ack := Function.update a.ack (i, a.now i) ((a.log i).length + 1) }
  have hrun : Runs (Finset.range n) LogEntry.term i a a' :=
    .single (.append e (by rw [hd.now, hd.log]; exact hlead) hd.now.symm)
  obtain ⟨hinv, hmoves⟩ := h.inv.run hrun
  have hlead' : a'.lead = Function.update a.lead s.currentTerm (some (i, s.log ++ [e])) := by
    rw [← hd.now, ← hd.log]
  refine ⟨a', h.advance_voteless hv hrun ?_ rfl ?_ (confirms_of_not_success hnone)⟩
  · rw [hlead']
    exact h.indexed_update ((h.indexed _ i _ hlead).concat rfl)
  · refine ⟨hd.now, ?_, ?_, ?_, fun hc => absurd (hr.symm.trans hc) (by decide), fun _ => ?_⟩
    · exact (Function.update_self ..).trans (by rw [hd.log])
    · exact le_trans hd.commit_le (by simp)
    · have htake : (s.log ++ [e]).take s.commitIndex = s.log.take s.commitIndex :=
        List.take_append_of_le_length hd.commit_le
      dsimp only
      rw [htake]
      exact hd.certified.mono hmoves
    · refine ⟨?_, ?_, fun j x hx => ?_, fun j x hx => ?_⟩
      · rw [hlead']
        exact Function.update_self ..
      · have hack : a'.ack (i, s.currentTerm) = s.log.length + 1 := by
          rw [← hd.now, ← hd.log]
          exact Function.update_self ..
        rw [hack]
        simp
      · obtain ⟨hpos, hle⟩ := hnext j x hx
        refine ⟨hpos, le_trans hle ?_⟩
        simp
      · exact le_trans (hcounted j x hx) (hmoves.ack _)

/-- A candidate wins. -/
theorem Refines.step_win (h : Refines n a w.nodes w.history)
    (hok : ∀ w i c, ok w i c → Checked (w.nodes i) c) (hw : (system n {} rngs).Reach ok w)
    (hg : ok w i c) (hf : (system n {} rngs).Fires w ⟨i, c, s, lead (node n i) s, out⟩)
    {m : NetworkMessage} {t : ℕ} (hc : c = .recv m)
    (hm : m.payload = .raft (.requestVoteResponse t true)) (ht : t ≤ s.currentTerm)
    (hr : s.role = .candidate) (hq : (node n i).majority ≤ s.votesReceived + 1)
    (hv : votes ⟨i, c, s, lead (node n i) s, out⟩ = none)
    (hnone : ∀ m ∈ out, ∀ t mi, m.payload ≠ .raft (.appendEntriesResponse t true mi)) :
    ∃ a', Refines n a' (Function.update w.nodes i (lead (node n i) s))
      (⟨i, c, s, lead (node n i) s, out⟩ :: w.history) := by
  have hs := hf.before_eq
  dsimp only at hs
  have hd := h.describes i
  rw [← hs] at hd
  obtain ⟨hcand, hnolead⟩ := hd.candidate hr
  -- a majority has voted for the node, all of it before this step
  obtain ⟨V, hV, hvoted⟩ : ∃ V, Majority (Finset.range n) V ∧
      ∀ j ∈ V, a.vote (j, s.currentTerm) = some i := by
    obtain ⟨V, hV, hvoted⟩ :=
      win_majority (fun w i c hg => (hok w i c hg).1) hw hg hf hc hm ht hr hq
    refine ⟨V, hV, fun j hj => ?_⟩
    obtain ⟨o, ho, hnode, hvo⟩ := hvoted j hj
    rcases List.mem_cons.mp ho with rfl | hold
    · exact absurd (hv.symm.trans hvo) (by simp)
    · exact (h.voted j _ i).mpr ⟨o, hold, hnode, hvo⟩
  have hfree : a.lead s.currentTerm = none := by
    cases hl : a.lead s.currentTerm with
    | none => rfl
    | some cL =>
      obtain ⟨k, L⟩ := cL
      obtain ⟨V', hV', hvoted'⟩ := h.inv.elected _ k L hl
      obtain ⟨j, hj, hj'⟩ := hV.exists_common hV'
      have heq := (hvoted j hj).symm.trans (hvoted' j hj')
      rw [Option.some.injEq] at heq
      rw [← heq] at hl
      exact absurd hl (hnolead L)
  let a' : Replication.State NodeId LogEntry :=
    { a with
      lead := Function.update a.lead (a.now i) (some (i, a.log i))
      ack := Function.update a.ack (i, a.now i) (a.log i).length }
  have hrun : Runs (Finset.range n) LogEntry.term i a a' := by
    refine .single (.elect V hV ?_ ?_ ?_)
    · rw [hd.now]; exact hvoted
    · rw [hd.now, hd.log]; exact hcand
    · rw [hd.now]; exact hfree
  obtain ⟨hinv, hmoves⟩ := h.inv.run hrun
  have hlead' : a'.lead = Function.update a.lead s.currentTerm (some (i, s.log)) := by
    rw [← hd.now, ← hd.log]
  refine ⟨a', h.advance_voteless hv hrun ?_ rfl ?_ (confirms_of_not_success hnone)⟩
  · rw [hlead']
    refine h.indexed_update ?_
    rw [← hd.log]
    exact indexed_of_traced h.indexed (h.inv.traced i)
  · have hpeers := indexesPeers hw i
    rw [← hs] at hpeers
    refine ⟨hd.now, hd.log, hd.commit_le, hd.certified.mono hmoves, fun hc => ?_, fun _ => ?_⟩
    · exact absurd hc (by simp [lead, initIndices])
    · refine ⟨?_, ?_, fun j x hx => ?_, fun j x hx => ?_⟩
      · rw [hlead']
        exact Function.update_self ..
      · refine le_of_eq (Eq.symm ?_)
        have hack : a'.ack (i, s.currentTerm) = s.log.length := by
          rw [← hd.now, ← hd.log]
          exact Function.update_self ..
        exact hack
      · rw [lead, lookup_initIndices_next] at hx
        split at hx
        · rw [Option.some.injEq] at hx
          rw [← hx]
          exact ⟨Nat.succ_pos _, le_refl _⟩
        · rename_i hj
          exact absurd (hpeers j ⟨x, .inl hx⟩) hj
      · rw [lead, lookup_initIndices_match] at hx
        split at hx
        · rw [Option.some.injEq] at hx
          rw [← hx]
          exact Nat.zero_le _
        · rename_i hj
          exact absurd (hpeers j ⟨x, .inr hx⟩) hj

/-- Where a received `AppendEntries` comes from. -/
theorem Refines.received (h : Refines n a w.nodes w.history) (hw : (system n {} rngs).Reach ok w)
    {o : NodeStep RaftState} (hf : (system n {} rngs).Fires w o) {m : NetworkMessage}
    (hc : o.cause = .recv m) {t : ℕ} {l : NodeId} {pi pt : ℕ} {es : List LogEntry} {lc : ℕ}
    (hm : m.payload = .raft (.appendEntries t l pi pt es lc)) :
    ∃ M L, SentBy n a m.sender t pi pt es lc M L := by
  obtain ⟨_, o₀, ho₀, hmo, hsender, _⟩ := recv_source hw hf hc
  rw [hsender]
  exact h.sentBy hw ho₀ hmo hm

/-- What accepting the entries of a received message gives. -/
theorem Refines.accepted (h : Refines n a w.nodes w.history)
    (hok : ∀ w i c, ok w i c → Checked (w.nodes i) c) (hw : (system n {} rngs).Reach ok w)
    {m : NetworkMessage} (hg : ok w i (.recv m))
    (hf : (system n {} rngs).Fires w ⟨i, .recv m, s, s', out⟩)
    {t : ℕ} {l : NodeId} {pi pt : ℕ} {es : List LogEntry} {lc : ℕ} {log : List LogEntry}
    (hm : m.payload = .raft (.appendEntries t l pi pt es lc)) (ht : s.currentTerm ≤ t)
    (hprev : prevMatches s.log pi pt) (hlog : es.foldlM appendEntry s.log = some log) :
    ∃ L, a.lead t = some (m.sender, L) ∧ log <+: L ∧ (log = s.log ∨ ¬ log <+: s.log) ∧
      Certified (Finset.range n) LogEntry.term a t (log.take (min lc log.length)) := by
  have hs := hf.before_eq
  dsimp only at hs
  subst hs
  obtain ⟨M, L, hsent⟩ := h.received hw hf rfl hm
  obtain ⟨log', hfold, hpart, hsame, hcert⟩ := h.accept_log hsent hprev
    ((hok w i _ hg).2.2.tail hm ht hprev)
  obtain rfl := Option.some.inj (hlog.symm.trans hfold)
  exact ⟨L, hsent.lead, hpart, hsame, hcert⟩

/-- A node accepts entries. -/
theorem Refines.step_accept (h : Refines n a w.nodes w.history)
    (hok : ∀ w i c, ok w i c → Checked (w.nodes i) c) (hw : (system n {} rngs).Reach ok w)
    {m : NetworkMessage} (hg : ok w i (.recv m))
    (hf : (system n {} rngs).Fires w ⟨i, .recv m, s, s', out⟩)
    {t : ℕ} {l : NodeId} {pi pt : ℕ} {es : List LogEntry} {lc : ℕ} {log : List LogEntry}
    (hm : m.payload = .raft (.appendEntries t l pi pt es lc)) (ht : s.currentTerm ≤ t)
    (hprev : prevMatches s.log pi pt) (hlog : es.foldlM appendEntry s.log = some log)
    (hs' : (if lc > s.commitIndex then
        commitUpTo { follow s t l with log := log } (min lc log.length)
      else some { follow s t l with log := log }) = some s')
    (hout : out = [(node n i).msgTo m.sender (.raft (.appendEntriesResponse t true log.length))])
    (hv : votes ⟨i, .recv m, s, s', out⟩ = none) :
    ∃ a', Refines n a' (Function.update w.nodes i s') (⟨i, .recv m, s, s', out⟩ :: w.history) := by
  have hs := hf.before_eq
  dsimp only at hs
  have hd := h.describes i
  rw [← hs] at hd
  obtain ⟨L, hlead, hpart, hsame, hcert⟩ := h.accepted hok hw hg hf hm ht hprev hlog
  have hkept := take_of_kept hd.commit_le (hd.kept_accept h.inv ht hlead hpart hsame)
  -- the party takes the log over unless it has it, and confirms it
  obtain ⟨a', hrun, hnow, halog, halead, havote, hack⟩ : ∃ a' : Replication.State NodeId LogEntry,
      Runs (Finset.range n) LogEntry.term i a a' ∧ a'.now i = t ∧ a'.log i = log ∧
        a'.lead = a.lead ∧ a'.vote = a.vote ∧ log.length ≤ a'.ack (i, t) := by
    have hraise : a.now i ≤ t := by rw [hd.now]; exact ht
    rcases hsame with rfl | hno
    · refine ⟨_, .confirm hraise hlead (by rw [hd.log]; exact hpart), a.raise_now i t, hd.log, rfl,
        rfl, ?_⟩
      dsimp only
      rw [Function.update_self, hd.log]
      exact le_max_right _ _
    · refine ⟨_, .replace hraise hlead hpart (by rw [hd.log]; exact hno), a.raise_now i t,
        Function.update_self .., rfl, rfl, ?_⟩
      dsimp only
      rw [Function.update_self]
      exact le_max_right _ _
  obtain ⟨hinv, hmoves⟩ := h.inv.run hrun
  refine ⟨a', h.advance_voteless hv hrun ?_ havote ?_ ?_⟩
  · rw [halead]
    exact h.indexed
  · split at hs'
    · obtain ⟨_, hle, rfl⟩ := commitUpTo_eq_some.mp hs'
      exact .of_follower hnow halog hle (hcert.mono hmoves) rfl
    · cases hs'
      refine .of_follower hnow halog hkept.1 ?_ rfl
      show Certified (Finset.range n) LogEntry.term a' t (log.take s.commitIndex)
      rw [hkept.2]
      exact (hd.certified.mono hmoves).mono_term ht
  · intro m' hm' t' mi hpl
    dsimp only at hm'
    rw [hout, List.mem_singleton] at hm'
    subst hm'
    cases hpl
    exact ⟨L, by rw [halead]; exact hlead, hack⟩

/-- A node cuts its log. -/
theorem Refines.step_conflict (h : Refines n a w.nodes w.history)
    (hw : (system n {} rngs).Reach ok w) {m : NetworkMessage}
    {t : ℕ} {l : NodeId} {pi pt : ℕ} {es : List LogEntry} {lc : ℕ} {e : LogEntry}
    (hf : (system n {} rngs).Fires w
      ⟨i, .recv m, s, { follow s t l with log := s.log.take (pi - 1) }, out⟩)
    (hm : m.payload = .raft (.appendEntries t l pi pt es lc)) (ht : s.currentTerm ≤ t)
    (hpi : 0 < pi) (he : s.log[pi - 1]? = some e) (hne : e.term ≠ pt)
    (hv : votes ⟨i, .recv m, s, { follow s t l with log := s.log.take (pi - 1) }, out⟩ = none)
    (hnone : ∀ m ∈ out, ∀ t mi, m.payload ≠ .raft (.appendEntriesResponse t true mi)) :
    ∃ a', Refines n a'
      (Function.update w.nodes i { follow s t l with log := s.log.take (pi - 1) })
      (⟨i, .recv m, s, { follow s t l with log := s.log.take (pi - 1) }, out⟩ :: w.history) := by
  have hs := hf.before_eq
  dsimp only at hs
  have hd := h.describes i
  rw [← hs] at hd
  obtain ⟨M, L, hsent⟩ := h.received hw hf rfl hm
  -- the leader's log has an entry of another term at this place
  obtain ⟨y, hy, hney⟩ := hsent.conflict_log hpi hne
  have hkept := take_of_kept hd.commit_le (hd.kept_conflict h.inv ht hsent.lead he hy hney)
  have hrun : Runs (Finset.range n) LogEntry.term i a _ :=
    .truncate (by rw [hd.now]; exact ht) hsent.lead (by rw [hd.log]; exact he) hy hney
  obtain ⟨hinv, hmoves⟩ := h.inv.run hrun
  refine ⟨_, h.advance_voteless hv hrun h.indexed rfl ?_ (confirms_of_not_success hnone)⟩
  refine .of_follower (a.raise_now i t) ?_ hkept.1 ?_ rfl
  · exact (Function.update_self ..).trans (by rw [hd.log])
  · show Certified (Finset.range n) LogEntry.term _ t ((s.log.take (pi - 1)).take s.commitIndex)
    rw [hkept.2]
    exact (hd.certified.mono hmoves).mono_term ht

omit [Sha256] in
/-- A step that leaves what is described. -/
theorem Refines.step_quiet (h : Refines n a w.nodes w.history)
    (hv : votes ⟨i, c, s, s', out⟩ = none) (hd : Describes n a i s')
    (hnone : ∀ m ∈ out, ∀ t mi, m.payload ≠ .raft (.appendEntriesResponse t true mi)) :
    ∃ a', Refines n a' (Function.update w.nodes i s') (⟨i, c, s, s', out⟩ :: w.history) :=
  ⟨a, h.advance_voteless hv .refl h.indexed rfl hd (confirms_of_not_success hnone)⟩

omit [Sha256] in
/-- A step that at most raises the term of a follower. -/
theorem Refines.step_raise (h : Refines n a w.nodes w.history) (hd : Describes n a i s)
    (hv : votes ⟨i, c, s, s', out⟩ = none) (ht : s.currentTerm ≤ s'.currentTerm)
    (hlog : s'.log = s.log) (hcommit : s'.commitIndex = s.commitIndex) (hr : s'.role = .follower)
    (hnone : ∀ m ∈ out, ∀ t mi, m.payload ≠ .raft (.appendEntriesResponse t true mi)) :
    ∃ a', Refines n a' (Function.update w.nodes i s') (⟨i, c, s, s', out⟩ :: w.history) := by
  have hrun : Runs (Finset.range n) LogEntry.term i a (a.raise i s'.currentTerm) :=
    .raise (by rw [hd.now]; exact ht)
  refine ⟨_, h.advance_voteless hv hrun h.indexed rfl ?_ (confirms_of_not_success hnone)⟩
  refine .of_follower (a.raise_now i _) (by rw [hlog]; exact hd.log) ?_ ?_ hr
  · rw [hlog, hcommit]
    exact hd.commit_le
  · rw [hlog, hcommit]
    exact (hd.certified.mono (h.inv.run hrun).2).mono_term ht

/-- A step without a vote. -/
theorem Refines.step_voteless (h : Refines n a w.nodes w.history)
    (hok : ∀ w i c, ok w i c → Checked (w.nodes i) c) (hw : (system n {} rngs).Reach ok w)
    (hg : ok w i c) (hf : (system n {} rngs).Fires w ⟨i, c, s, s', out⟩)
    (hv : votes ⟨i, c, s, s', out⟩ = none) :
    ∃ a', Refines n a' (Function.update w.nodes i s') (⟨i, c, s, s', out⟩ :: w.history) := by
  have heff := effect_of_fires hf
  have hs := hf.before_eq
  have hi := Finset.mem_range.mp hf.node_mem
  dsimp only at heff hs hi
  have hd := h.describes i
  have hpeers := indexesPeers hw i
  have hcheck := hok w i c hg
  rw [← hs] at hd hpeers hcheck
  -- none of the answers that follow reports a success
  have hnil : ∀ m ∈ ([] : List NetworkMessage), ∀ t mi,
      m.payload ≠ .raft (.appendEntriesResponse t true mi) := fun m hm => absurd hm (by simp)
  have hone : ∀ (j : NodeId) (x : RaftMessage), (∀ t mi, x ≠ .appendEntriesResponse t true mi) →
      ∀ m ∈ [(node n i).msgTo j (.raft x)], ∀ t mi,
        m.payload ≠ .raft (.appendEntriesResponse t true mi) := by
    intro j x hx m hm t mi hpl
    rw [List.mem_singleton] at hm
    subst hm
    exact hx t mi (ProtocolMessage.raft.inj hpl)
  cases heff with
  | refuse | poll | heartbeatDown | electionDown | discard | countVote =>
    exact h.step_quiet hv (hd.congr ⟨rfl, rfl, rfl, rfl, rfl, rfl⟩) hnil
  | heartbeat =>
    exact h.step_quiet hv (hd.congr ⟨rfl, rfl, rfl, rfl, rfl, rfl⟩) (broadcast_not_success _ _)
  | append p hr => exact h.step_append hd hr p hv (broadcast_not_success _ _)
  | stand hr h0 =>
    exact absurd (hv.symm.trans (votes_eq_some.mpr
      (.inl ⟨stands_eq_some.mpr ⟨rfl, hr, h0, rfl⟩, rfl⟩))) (by simp)
  | grant m t x li lt hm hcan =>
    exact absurd (hv.symm.trans (votes_eq_some.mpr
      (.inr (grants_eq_some.mpr ⟨m, li, lt, rfl, hm, hcan⟩)))) (by simp)
  | deny m t x li lt hm hno =>
    have hnone := hone m.sender (.requestVoteResponse (observe s t).currentTerm false) (by simp)
    by_cases hlt : s.currentTerm < t
    · refine h.step_raise hd hv ?_ (observe_log s t) (observe_commitIndex s t) ?_ hnone
      · rw [observe_currentTerm]
        exact le_max_left _ _
      · unfold observe
        rw [if_pos hlt]
    · have hobs : observe s t = s := if_neg hlt
      refine h.step_quiet hv (hd.congr ?_) hnone
      rw [hobs]
      exact ⟨rfl, rfl, rfl, rfl, rfl, rfl⟩
  | stepDown m t hm ht => exact h.step_raise hd hv (le_of_lt ht) rfl rfl rfl hnil
  | win m t hm ht hr hq =>
    exact h.step_win hok hw hg hf rfl hm ht hr hq hv (broadcast_not_success _ _)
  | reject m t l pi pt es lc hm ht => exact h.step_quiet hv hd (hone _ _ (by simp))
  | miss m t l pi pt es lc hm ht => exact h.step_raise hd hv ht rfl rfl rfl (hone _ _ (by simp))
  | conflict m t l pi pt es lc e hm ht hpi he hne =>
    exact h.step_conflict hw hf hm ht hpi he hne hv (hone _ _ (by simp))
  | accept m t l pi pt es lc log s' hm ht hprev hlog hs' =>
    exact h.step_accept hok hw hg hf hm ht hprev hlog hs' rfl hv
  | record m t mi hm ht hr hk =>
    obtain rfl := le_antisymm ht (hcheck.2.1.le hm hr)
    obtain ⟨L, _, hack⟩ := h.confirmed hw hf rfl hm
    exact h.step_quiet hv (hd.record h.inv hr hack) hnil
  | commit m t mi k s' hm ht hr hk hs' =>
    obtain rfl := le_antisymm ht (hcheck.2.1.le hm hr)
    obtain ⟨L, _, hack⟩ := h.confirmed hw hf rfl hm
    have hrecord := hd.record h.inv hr hack
    obtain ⟨_, hle, rfl⟩ := commitUpTo_eq_some.mp hs'
    have hindex := (effect_of_fires (o := ⟨i, .recv m, s, _, []⟩) hf).indexesPeers hpeers
      fun m' hc => recv_from_peer hw hf hc
    exact h.step_quiet hv (hrecord.commit hle (hrecord.certified_next hr hindex hi hk) _) hnil
  | retry m t mi hm ht hr =>
    refine h.step_quiet hv (hd.retry hr _) ?_
    intro m' hm' t' mi' hpl
    rw [List.mem_singleton] at hm'
    rw [hm'] at hpl
    exact absurd hpl (by simp [buildAppendEntries, msgTo])

/-- **Every step is matched.** -/
theorem Refines.step (h : Refines n a w.nodes w.history)
    (hok : ∀ w i c, ok w i c → Checked (w.nodes i) c) (hw : (system n {} rngs).Reach ok w)
    {o : NodeStep RaftState} (hg : ok w o.node o.cause) (hf : (system n {} rngs).Fires w o) :
    ∃ a', Refines n a' (Function.update w.nodes o.node o.after) (o :: w.history) := by
  obtain ⟨i, c, s, s', out⟩ := o
  cases hv : votes ⟨i, c, s, s', out⟩ with
  | none => exact h.step_voteless hok hw hg hf hv
  | some tc =>
    rcases votes_eq_some.mp hv with ⟨ht, _⟩ | hgrants
    · exact h.step_stand hf.before_eq ht (effect_of_fires hf)
    · exact h.step_grant hw hf hgrants

end Step

/-- **Refinement**: in the runs in which every step is checked, an abstract state that
    satisfies the invariants describes the nodes and their steps. -/
theorem refines [Sha256] {n : ℕ} {rngs : NodeId → StdRng}
    {ok : System.Guard NodeId RaftState Call NetworkMessage}
    {w : World NodeId RaftState Call NetworkMessage}
    (hok : ∀ w i c, ok w i c → Checked (w.nodes i) c) (hw : (system n {} rngs).Reach ok w) :
    ∃ a, Refines n a w.nodes w.history := by
  refine System.Reach.induct (N := fun nodes hist => ∃ a, Refines n a nodes hist) ?_ ?_ hw
  · refine ⟨.initial, .initial _ _, fun t c L hl => absurd hl (by simp [Replication.State.initial]),
      fun j t c => ⟨fun hv => absurd hv (by simp [Replication.State.initial]), ?_⟩, fun i => ?_,
      fun o ho => absurd ho (by simp)⟩
    · rintro ⟨o, ho, _⟩
      exact absurd ho (by simp)
    · exact .of_follower rfl rfl (Nat.zero_le _) (.inl rfl) rfl
  · rintro w o hr ⟨a, ha⟩ hg hf
    exact ha.step hok hr hg hf

end Raft

end ConsensusBench
