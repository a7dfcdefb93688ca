import ConsensusBench.Raft.Election

namespace ConsensusBench

/-!
# Raft logs

What the handlers do to a log, as facts about lists of entries.

* `Indexed` — the entry at a position carries the index of the position.
* `LogMatching` — entries of one term at one position have the same entries before them.
* `foldlM_appendEntry` — appending the entries of a message takes over the log that the
  message was made from, unless the log has all of it already.
* `nextCommit_eq_some` — what the leader commits is counted on a majority.

`CoversTail` and `RecordsCurrentSuccess` say what the handlers do not check.
-/

open AsyncNet RaftNode

namespace Raft

/-! ### Logs -/

/-- Every entry has the index of its position. -/
def Indexed (log : List LogEntry) : Prop := ∀ k e, log[k]? = some e → e.index = k + 1

instance : DecidablePred Indexed := fun log =>
  decidable_of_iff (∀ k : Fin log.length, (log.get k).index = k + 1) <| by
    constructor
    · intro h k e he
      obtain ⟨hk, rfl⟩ := List.getElem?_eq_some_iff.mp he
      exact h ⟨k, hk⟩
    · intro h k
      exact h k _ (List.getElem?_eq_getElem k.isLt)

/-- Entries of one term at one position have the same entries before them. -/
def LogMatching (log log' : List LogEntry) : Prop :=
  ∀ k x y, log[k]? = some x → log'[k]? = some y → x.term = y.term →
    log.take (k + 1) = log'.take (k + 1)

/-- One entry more of a log. -/
theorem take_succ_eq {log : List LogEntry} {k : ℕ} {e : LogEntry} (he : log[k]? = some e) :
    log.take (k + 1) = log.take k ++ [e] := by
  rw [List.take_add_one, he]
  rfl

/-- An entry with the next index may be appended. -/
theorem Indexed.concat {log : List LogEntry} (h : Indexed log) {e : LogEntry}
    (he : e.index = log.length + 1) : Indexed (log ++ [e]) := by
  intro k x hx
  rcases Nat.lt_or_ge k log.length with hlt | hge
  · rw [List.getElem?_append_left hlt] at hx
    exact h k x hx
  · obtain ⟨hk, hx⟩ := List.getElem?_eq_some_iff.mp hx
    have hlast : k = log.length := by
      rw [List.length_append, List.length_singleton] at hk
      omega
    subst hlast
    rw [List.getElem_append_right (le_refl _)] at hx
    rw [← hx, List.getElem_singleton, he]

/-- The entries of a log from position `p` on, appended to those before, give the log. -/
theorem foldlM_appendEntry_take {log : List LogEntry} (h : Indexed log) {p : ℕ}
    (hp : p ≤ log.length) : (log.drop p).foldlM appendEntry (log.take p) = some log := by
  induction hd : log.length - p generalizing p with
  | zero =>
    have hall : log.length ≤ p := by omega
    rw [List.drop_of_length_le hall, List.take_of_length_le hall]
    rfl
  | succ d ih =>
    have hlt : p < log.length := by omega
    have hget : log[p]? = some log[p] := List.getElem?_eq_getElem hlt
    have hidx : log[p].index = p + 1 := h p _ hget
    have hfree : (log.take p)[p]? = none :=
      List.getElem?_eq_none (by rw [List.length_take]; exact min_le_left _ _)
    have hone : appendEntry (log.take p) log[p] = some (log.take (p + 1)) := by
      rw [appendEntry, if_neg (by omega)]
      simp only [hidx, Nat.add_sub_cancel, hfree]
      rw [take_succ_eq hget]
    rw [List.drop_eq_getElem_cons hlt, List.foldlM_cons, hone]
    exact ih hlt (by omega)

/-- **Appending the entries of a message** made from the log `M`, at a position up to which
    the logs agree, gives `M`, unless all of `M` is there already. -/
theorem foldlM_appendEntry {F M : List LogEntry} (hM : Indexed M) (hmatch : LogMatching F M)
    {p : ℕ} (hp : p ≤ M.length) (htake : F.take p = M.take p) :
    (M.drop p).foldlM appendEntry F = some (if M <+: F then F else M) := by
  induction hd : M.length - p generalizing p with
  | zero =>
    have hall : M.length ≤ p := by omega
    have hpre : M <+: F := by
      rw [List.take_of_length_le hall] at htake
      rw [← htake]
      exact List.take_prefix _ _
    rw [List.drop_of_length_le hall, if_pos hpre]
    rfl
  | succ d ih =>
    have hlt : p < M.length := by omega
    have hget : M[p]? = some M[p] := List.getElem?_eq_getElem hlt
    have hidx : M[p].index = p + 1 := hM p _ hget
    -- from a log that ends before the entry, the rest of `M` is appended
    have hrest : ∀ F', appendEntry F M[p] = some F' → F' = M.take (p + 1) →
        (M.drop p).foldlM appendEntry F = some M := by
      intro F' hone heq
      rw [List.drop_eq_getElem_cons hlt, List.foldlM_cons, hone, heq]
      exact foldlM_appendEntry_take hM hlt
    cases hF : F[p]? with
    | none =>
      have hshort : F.length ≤ p := List.getElem?_eq_none_iff.mp hF
      have hno : ¬ M <+: F := fun hpre => absurd hpre.length_le (by omega)
      rw [if_neg hno]
      apply hrest (F ++ [M[p]])
      · rw [appendEntry, if_neg (by omega)]
        simp only [hidx, Nat.add_sub_cancel, hF]
      · rw [take_succ_eq hget, ← htake, List.take_of_length_le hshort]
    | some x =>
      by_cases hx : x.term = M[p].term
      · have hone : appendEntry F M[p] = some F := by
          rw [appendEntry, if_neg (by omega)]
          simp only [hidx, Nat.add_sub_cancel, hF, hx, ne_eq, not_true_eq_false, if_false]
        rw [List.drop_eq_getElem_cons hlt, List.foldlM_cons, hone]
        exact ih hlt (hmatch p x _ hF hget hx) (by omega)
      · have hno : ¬ M <+: F := by
          intro hpre
          obtain ⟨u, rfl⟩ := hpre
          rw [List.getElem?_append_left hlt, hget, Option.some.injEq] at hF
          exact hx (by rw [hF])
        rw [if_neg hno]
        apply hrest (F.take p ++ [M[p]])
        · rw [appendEntry, if_neg (by omega)]
          simp only [hidx, Nat.add_sub_cancel, hF, ne_eq, hx, not_false_eq_true, if_true]
        · rw [take_succ_eq hget, htake]

/-- The check of the entry before, as the code makes it. -/
theorem prevMatches_iff {log : List LogEntry} {pi pt : ℕ} : prevMatches log pi pt ↔
    pi = 0 ∨ log[pi - 1]?.any (fun e => e.term = pt) = true := by
  rw [prevMatches, Option.any_eq_true]
  simp only [decide_eq_true_eq]

instance (log : List LogEntry) (pi pt : ℕ) : Decidable (prevMatches log pi pt) :=
  decidable_of_iff _ prevMatches_iff.symm

/-- Logs that have the same entry before the new ones agree up to it. -/
theorem take_eq_of_prevMatches {F M : List LogEntry} (hmatch : LogMatching F M) {pi pt : ℕ}
    (hF : prevMatches F pi pt) (hM : prevMatches M pi pt) : F.take pi = M.take pi := by
  rcases hF with h0 | ⟨x, hx, hxt⟩
  · rw [h0, List.take_zero, List.take_zero]
  · rcases hM with h0 | ⟨y, hy, hyt⟩
    · rw [h0, List.take_zero, List.take_zero]
    · by_cases h0 : pi = 0
      · rw [h0, List.take_zero, List.take_zero]
      · have heq := hmatch (pi - 1) x y hx hy (hxt.trans hyt.symm)
        rwa [Nat.sub_add_cancel (by omega)] at heq

/-- Whether one of the entries conflicts with the log. -/
def conflicts (log es : List LogEntry) : Prop :=
  ∃ e ∈ es, log[e.index - 1]?.any (fun x => x.term ≠ e.term) = true

instance (log es : List LogEntry) : Decidable (conflicts log es) :=
  inferInstanceAs (Decidable (∃ e ∈ es, _))

/-- A log conflicts with no entries of its own. -/
theorem not_conflicts {F M : List LogEntry} (hM : Indexed M) (hpre : M <+: F) (p : ℕ) :
    ¬ conflicts F (M.drop p) := by
  rintro ⟨e, he, hany⟩
  obtain ⟨k, hk⟩ := List.mem_iff_getElem?.mp (List.mem_of_mem_drop he)
  obtain ⟨u, rfl⟩ := hpre
  obtain ⟨hlt, _⟩ := List.getElem?_eq_some_iff.mp hk
  rw [hM k e hk, Nat.add_sub_cancel, List.getElem?_append_left hlt, hk] at hany
  exact absurd hany (by simp)

/-! ### What a leader sends and commits -/

/-- The indices a leader keeps of its peers point into its log or right behind it. -/
def NextInLog (s : RaftState) : Prop :=
  ∀ j x, s.nextIndex.lookup j = some x → 0 < x ∧ x ≤ s.log.length + 1

section NextInLog

variable {s : RaftState} {k : NodeId}

/-- A log may grow. -/
theorem NextInLog.append (h : NextInLog s) (e : LogEntry) :
    NextInLog { s with log := s.log ++ [e] } := by
  intro j x hx
  obtain ⟨hpos, hle⟩ := h j x hx
  refine ⟨hpos, hle.trans ?_⟩
  show s.log.length + 1 ≤ (s.log ++ [e]).length + 1
  rw [List.length_append]
  omega

/-- What a peer has confirmed of the log is not sent again. -/
theorem NextInLog.recordMatch (h : NextInLog s) {mi : ℕ} (hle : mi ≤ s.log.length) :
    NextInLog (Raft.recordMatch s k mi) := by
  intro j x hx
  rcases HashMap.of_lookup_insert hx with ⟨rfl, rfl⟩ | ⟨_, hx⟩
  · exact ⟨Nat.succ_pos mi, Nat.succ_le_succ hle⟩
  · exact h j x hx

/-- An index is moved back only if it is above `1`. -/
theorem NextInLog.backOff (h : NextInLog s) : NextInLog (Raft.backOff s k) := by
  unfold Raft.backOff
  split
  · rename_i hgt
    intro j x hx
    rcases HashMap.of_lookup_insert hx with ⟨rfl, rfl⟩ | ⟨_, hx⟩
    · cases hy : s.nextIndex.lookup j with
      | none =>
        rw [hy] at hgt
        exact absurd hgt (lt_irrefl 1)
      | some y =>
        have hle := (h j y hy).2
        rw [hy, Option.getD_some] at hgt
        rw [Option.getD_some]
        exact ⟨by omega, (Nat.sub_le y 1).trans hle⟩
    · exact h j x hx
  · exact h

end NextInLog

/-- **What an `AppendEntries` is made of**: the entries behind position `pi` of the log, and the
    term of the entry there.  A position behind the end of the log goes with term `0`. -/
theorem buildAppendEntries_eq {self : RaftNode} {s : RaftState} {j : NodeId} {t : ℕ} {l : NodeId}
    {pi pt : ℕ} {es : List LogEntry} {lc : ℕ}
    (hm : (self.buildAppendEntries s j).payload = .raft (.appendEntries t l pi pt es lc)) :
    t = s.currentTerm ∧ pi = (s.nextIndex.lookup j).getD 1 - 1 ∧ es = s.log.drop pi ∧
      lc = s.commitIndex ∧
      (prevMatches s.log pi pt ∨ (s.log.length < pi ∧ pt = 0)) := by
  cases hm
  refine ⟨rfl, rfl, rfl, rfl, ?_⟩
  by_cases h0 : (s.nextIndex.lookup j).getD 1 - 1 = 0
  · exact .inl (.inl h0)
  · rw [if_pos (Nat.pos_of_ne_zero h0)]
    cases he : s.log[(s.nextIndex.lookup j).getD 1 - 1 - 1]? with
    | none =>
      have hshort := List.getElem?_eq_none_iff.mp he
      exact .inr ⟨by omega, rfl⟩
    | some e => exact .inl (.inr ⟨e, he, rfl⟩)

/-- **An `AppendEntries` is made from the leader's log**: its entries are the ones behind the
    entry it names. -/
theorem buildAppendEntries_inv {self : RaftNode} {s : RaftState} (h : NextInLog s) {j : NodeId}
    {t : ℕ} {l : NodeId} {pi pt : ℕ} {es : List LogEntry} {lc : ℕ}
    (hm : (self.buildAppendEntries s j).payload = .raft (.appendEntries t l pi pt es lc)) :
    t = s.currentTerm ∧ pi ≤ s.log.length ∧ prevMatches s.log pi pt ∧ es = s.log.drop pi ∧
      lc = s.commitIndex := by
  obtain ⟨ht, hpi, hes, hlc, hprev⟩ := buildAppendEntries_eq hm
  have hle : pi ≤ s.log.length := by
    rw [hpi]
    cases hx : s.nextIndex.lookup j with
    | none => exact Nat.zero_le _
    | some x =>
      have hbound := (h j x hx).2
      rw [Option.getD_some]
      omega
  exact ⟨ht, hle, hprev.resolve_right fun hlt => absurd hle (not_le.mpr hlt.1), hes, hlc⟩

/-- **What the leader may commit**: an index above the commit index, with an entry of the
    current term, that it counts on a majority. -/
theorem nextCommit_eq_some {self : RaftNode} {s : RaftState} {k : ℕ}
    (h : self.nextCommit s = some k) : s.commitIndex < k ∧ k ≤ s.log.length ∧
      (∃ e, s.log[k - 1]? = some e ∧ e.term = s.currentTerm) ∧
      self.majority ≤ replicatedOn s k := by
  have hmem := List.mem_of_find?_eq_some h
  have hp := List.find?_some h
  rw [List.mem_reverse, List.mem_range'_1] at hmem
  rw [Bool.and_eq_true, decide_eq_true_eq] at hp
  obtain ⟨hterm, hq⟩ := hp
  have hlt : k - 1 < s.log.length := by omega
  rw [List.getElem?_eq_getElem hlt, Option.all_some, decide_eq_true_eq] at hterm
  exact ⟨by omega, by omega, ⟨_, List.getElem?_eq_getElem hlt, hterm⟩, hq⟩

/-- **The handlers fail only on entries**: a message is handled unless it carries entries that
    cannot be appended, or that leave less than what is committed. -/
theorem handleMessage_ne_none {self : RaftNode} {s : RaftState} {m : NetworkMessage}
    (h : ∀ t l pi pt es lc, m.payload = .raft (.appendEntries t l pi pt es lc) →
      s.currentTerm ≤ t → prevMatches s.log pi pt →
      ∃ log, es.foldlM appendEntry s.log = some log ∧ s.commitIndex ≤ log.length) :
    self.handleMessage s m ≠ none := by
  -- slicing the log fails only beyond its end
  have hcommit : ∀ {s k}, s.commitIndex ≤ k → k ≤ s.log.length → commitUpTo s k ≠ none := by
    intro s k hle hlen hnone
    have hsome := commitUpTo_eq_some.mpr ⟨hle, hlen, rfl⟩
    exact absurd (hnone.symm.trans hsome) (by simp)
  have haccept : ∀ {t l pi pt es lc}, m.payload = .raft (.appendEntries t l pi pt es lc) →
      s.currentTerm ≤ t → prevMatches s.log pi pt →
      self.acceptEntries (follow s t l) m.sender es lc ≠ none := by
    intro t l pi pt es lc hm ht hprev
    obtain ⟨log, hlog, hle⟩ := h t l pi pt es lc hm ht hprev
    have hlog' : es.foldlM appendEntry (follow s t l).log = some log := hlog
    rw [acceptEntries, hlog', Option.bind_some, ne_eq, Option.map_eq_none_iff]
    split
    · rename_i hlc
      exact hcommit (le_min (le_of_lt hlc) hle) (min_le_right _ _)
    · exact Option.some_ne_none _
  unfold handleMessage
  split
  · exact Option.some_ne_none _
  · exact Option.some_ne_none _
  · rename_i t l pi pt es lc hm
    unfold handleAppendEntries
    split
    · exact Option.some_ne_none _
    · rename_i ht
      rw [not_lt] at ht
      dsimp only
      split
      · split
        · exact Option.some_ne_none _
        · rename_i e he
          split
          · exact Option.some_ne_none _
          · rename_i heq
            exact haccept hm ht (.inr ⟨e, he, not_not.mp heq⟩)
      · rename_i hpi
        exact haccept hm ht (.inl (Nat.eq_zero_of_not_pos hpi))
  · unfold handleAppendEntriesResponse
    split
    · exact Option.some_ne_none _
    · split
      · exact Option.some_ne_none _
      · split
        · dsimp only
          split
          · exact Option.some_ne_none _
          · rename_i k hk
            obtain ⟨hlt, hle, _⟩ := nextCommit_eq_some hk
            rw [ne_eq, Option.map_eq_none_iff]
            exact hcommit (le_of_lt hlt) hle
        · exact Option.some_ne_none _
  · exact Option.some_ne_none _

/-- Taking back what the leader counts: so many nodes have reported at least `k`. -/
theorem exists_replicas (s : RaftState) (k : ℕ) : ∃ V : Finset NodeId,
    V.card + 1 = replicatedOn s k ∧ ∀ j ∈ V, ∃ x, s.matchIndex.lookup j = some x ∧ k ≤ x := by
  obtain ⟨V, hcard, hV⟩ := HashMap.exists_keys s.matchIndex fun mi => decide (k ≤ mi)
  refine ⟨V, ?_, fun j hj => ?_⟩
  · rw [hcard]
    rfl
  · obtain ⟨x, hx, hle⟩ := hV j hj
    exact ⟨x, hx, of_decide_eq_true hle⟩

/-! ### Logs after a step -/

/-- What a step does to the log: it keeps or cuts it, a leader appends an entry to it, or
    entries of a message are appended. -/
theorem Effect.log_cases {self : RaftNode} {s s' : RaftState} {c : Cause Call NetworkMessage}
    {out : List NetworkMessage} (h : Effect self s c s' out) :
    (s'.log <+: s.log ∧ (s'.role = .leader → s'.log = s.log)) ∨
    (∃ p, s.role = .leader ∧
      s' = { s with log := s.log ++ [⟨s.currentTerm, s.log.length + 1, p⟩] }) ∨
    (∃ m t l pi pt es lc, c = .recv m ∧ m.payload = .raft (.appendEntries t l pi pt es lc) ∧
      prevMatches s.log pi pt ∧ es.foldlM appendEntry s.log = some s'.log ∧
      s'.role = .follower) := by
  have hkeep : s'.log = s.log → (s'.log <+: s.log ∧ (s'.role = .leader → s'.log = s.log)) :=
    fun heq => ⟨by rw [heq], fun _ => heq⟩
  cases h with
  | append p hr => exact .inr (.inl ⟨p, hr, rfl⟩)
  | deny m t => exact .inl (hkeep (observe_log s t))
  | grant m t => exact .inl (hkeep (observe_log s t))
  | conflict m t l pi pt es lc e hm ht hpi he hne =>
    exact .inl ⟨List.take_prefix _ _, fun hl => absurd hl (by simp [follow, resetElectionTimeout])⟩
  | accept m t l pi pt es lc log s' hm ht hprev hlog hs =>
    have hs' := accept_eq hs
    refine .inr (.inr ⟨m, t, l, pi, pt, es, lc, rfl, hm, hprev, ?_, ?_⟩)
    · rw [hs']
      exact hlog
    · rw [hs']
      rfl
  | commit m t mi k s' hm ht hr hk hs => exact .inl (hkeep (by rw [commitUpTo_eq hs]; rfl))
  | retry => exact .inl (hkeep (backOff_log s _))
  | _ => exact .inl (hkeep rfl)

/-! ### The peers of a leader -/

/-- A node keeps indices of its peers only. -/
def IndexesPeers (n : ℕ) (i : NodeId) (s : RaftState) : Prop :=
  ∀ j, (∃ x, s.nextIndex.lookup j = some x ∨ s.matchIndex.lookup j = some x) → j ∈ peerIds i n

/-- A new leader sends its peers what comes behind its log. -/
theorem lookup_initIndices_next (self : RaftNode) (s : RaftState) (j : NodeId) :
    (self.initIndices s).nextIndex.lookup j =
      if j ∈ self.peerIds then some (s.log.length + 1) else s.nextIndex.lookup j :=
  HashMap.lookup_foldl_insert self.peerIds (s.log.length + 1) s.nextIndex j

/-- A new leader knows nothing of what its peers have. -/
theorem lookup_initIndices_match (self : RaftNode) (s : RaftState) (j : NodeId) :
    (self.initIndices s).matchIndex.lookup j =
      if j ∈ self.peerIds then some 0 else s.matchIndex.lookup j :=
  HashMap.lookup_foldl_insert self.peerIds 0 s.matchIndex j

section System

variable {n : ℕ}

/-- Where a message goes: to a peer, or back to a sender. -/
theorem Effect.sent_target {i : NodeId} {s s' : RaftState} {c : Cause Call NetworkMessage}
    {out : List NetworkMessage} (h : Effect (node n i) s c s' out) {m : NetworkMessage}
    (hm : m ∈ out) : m.target ∈ peerIds i n ∨ ∃ m', c = .recv m' ∧ m.target = m'.sender := by
  have hbroadcast : ∀ {s}, m ∈ (node n i).broadcastAppendEntries s → m.target ∈ peerIds i n := by
    intro s hmem
    obtain ⟨j, hj, hne, rfl⟩ := mem_broadcastAppendEntries.mp hmem
    exact mem_peerIds.mpr ⟨hj, hne⟩
  cases h with
  | append | heartbeat | win => exact .inl (hbroadcast hm)
  | stand =>
    obtain ⟨j, hj, rfl⟩ := List.mem_map.mp hm
    exact .inl hj
  | deny m' | grant m' | reject m' | miss m' | conflict m' | accept m' | retry m' =>
    rw [List.mem_singleton] at hm
    exact .inr ⟨m', rfl, by rw [hm]; rfl⟩
  | _ => exact absurd hm (by simp)

/-- What a step does to the indices: nothing, a fresh start, or an index of the sender. -/
theorem Effect.indexesPeers {i : NodeId} {s s' : RaftState} {c : Cause Call NetworkMessage}
    {out : List NetworkMessage} (h : Effect (node n i) s c s' out)
    (hs : IndexesPeers n i s) (hsender : ∀ m, c = .recv m → m.sender ∈ peerIds i n) :
    IndexesPeers n i s' := by
  -- what is inserted is the index of a sender
  have hinsert : ∀ {M : HashMap NodeId ℕ} {m j v x}, c = .recv m →
      (M.insert m.sender v).lookup j = some x → j ∈ peerIds i n ∨ M.lookup j = some x := by
    intro M m j v x hc hx
    rw [HashMap.lookup_insert_ite] at hx
    split at hx
    · rename_i hj
      rw [hj]
      exact .inl (hsender m hc)
    · exact .inr hx
  have hrecord : ∀ {m mi}, c = .recv m → IndexesPeers n i (recordMatch s m.sender mi) := by
    rintro m mi hc j ⟨x, hx | hx⟩
    · rcases hinsert hc hx with hj | hold
      · exact hj
      · exact hs j ⟨x, .inl hold⟩
    · rcases hinsert hc hx with hj | hold
      · exact hj
      · exact hs j ⟨x, .inr hold⟩
  cases h with
  | win =>
    rintro j ⟨x, hx | hx⟩
    · rw [lead, lookup_initIndices_next] at hx
      split at hx
      · assumption
      · exact hs j ⟨x, .inl hx⟩
    · rw [lead, lookup_initIndices_match] at hx
      split at hx
      · assumption
      · exact hs j ⟨x, .inr hx⟩
  | deny m t =>
    unfold observe
    split
    · exact hs
    · exact hs
  | grant m t =>
    unfold observe
    split
    · exact hs
    · exact hs
  | accept m t l pi pt es lc log s' hm ht hprev hlog hs' =>
    split at hs'
    · obtain ⟨_, _, rfl⟩ := commitUpTo_eq_some.mp hs'
      exact hs
    · cases hs'
      exact hs
  | record m t mi => exact hrecord rfl
  | commit m t mi k s' hm ht hr hk hs' =>
    obtain ⟨_, _, rfl⟩ := commitUpTo_eq_some.mp hs'
    exact hrecord rfl
  | retry m t mi =>
    rintro j ⟨x, hx | hx⟩
    · unfold backOff at hx
      split at hx
      · rcases hinsert rfl hx with hj | hold
        · exact hj
        · exact hs j ⟨x, .inl hold⟩
      · exact hs j ⟨x, .inl hx⟩
    · rw [backOff_matchIndex] at hx
      exact hs j ⟨x, .inr hx⟩
  | _ => exact hs

variable [Sha256] {rngs : NodeId → StdRng}
variable {ok : System.Guard NodeId RaftState Call NetworkMessage}
variable {w : World NodeId RaftState Call NetworkMessage}

/-- Nodes send to their peers only, under all faults and however they were started. -/
theorem sent_to_peer_of {cfg : FaultConfig} {S : System NodeId RaftState Call NetworkMessage}
    (hS : ∀ w o, S.Fires w o → (system n cfg rngs).Fires w o) (hw : S.Reach ok w) :
    ∀ o ∈ w.history, ∀ m ∈ o.sent, m.target ∈ peerIds o.node n := by
  refine System.Reach.induct (N := fun _ hist => ∀ o ∈ hist, ∀ m ∈ o.sent,
    m.target ∈ peerIds o.node n) ?_ ?_ hw
  · intro o ho
    exact absurd ho (by simp)
  · intro w o hr ih _ hf o' ho' m hm
    have hfires := hS w o hf
    rcases List.mem_cons.mp ho' with rfl | hold
    · rcases (effect_of_fires hfires).sent_target hm with hj | ⟨m', hc, htarget⟩
      · exact hj
      · obtain ⟨hdst, o₀, ho₀, hsender, x, hmo, _⟩ :=
          tampered_source hfires (said_of_reach hS hr) hc
        obtain ⟨w₀, _, _, hf₀, _⟩ := hr.fired o₀ ho₀
        have hn : o₀.node < n := Finset.mem_range.mp (hS w₀ o₀ hf₀).node_mem
        have hpeer := ih o₀ ho₀ _ hmo
        rw [hdst, mem_peerIds] at hpeer
        rw [htarget, hsender, mem_peerIds]
        exact ⟨hn, hpeer.2.symm⟩
    · exact ih o' hold m hm

/-- Messages are for peers. -/
theorem sent_to_peer (hw : (system n {} rngs).Reach ok w) : ∀ o ∈ w.history, ∀ m ∈ o.sent,
    m.target ∈ peerIds o.node n :=
  sent_to_peer_of (fun _ _ h => h) hw

/-- A node hears from its peers only. -/
theorem recv_from_peer (hw : (system n {} rngs).Reach ok w) {o : NodeStep RaftState}
    (hf : (system n {} rngs).Fires w o) {m : NetworkMessage} (hc : o.cause = .recv m) :
    m.sender ∈ peerIds o.node n := by
  obtain ⟨hdst, o₀, ho₀, hmo, hsender, hn, _⟩ := recv_source hw hf hc
  have hpeer := sent_to_peer hw o₀ ho₀ m hmo
  rw [hdst, mem_peerIds] at hpeer
  rw [hsender, mem_peerIds]
  exact ⟨hn, hpeer.2.symm⟩

/-- **Nodes keep indices of their peers only.** -/
theorem indexesPeers (hw : (system n {} rngs).Reach ok w) :
    ∀ i, IndexesPeers n i (w.nodes i) := by
  refine hw.everywhere ?_ ?_
  · rintro i j ⟨x, hx | hx⟩
    · exact absurd hx (by simp [system, newSeeded])
    · exact absurd hx (by simp [system, newSeeded])
  · intro w o hr ih _ hf
    exact (effect_of_fires hf).indexesPeers ih fun m hc => recv_from_peer hr hf hc

end System

/-! ### What the handlers do not check -/

/-- The term of the success that a node processes. -/
def successOf : Cause Call NetworkMessage → Option ℕ
  | .recv ⟨_, _, .raft (.appendEntriesResponse t true _)⟩ => some t
  | _ => none

/-- The `AppendEntries` that a node processes: its term, the index and the term of the entry
    before the new ones, and these. -/
def entriesOf : Cause Call NetworkMessage → Option (ℕ × ℕ × ℕ × List LogEntry)
  | .recv ⟨_, _, .raft (.appendEntries t _ pi pt es _)⟩ => some (t, pi, pt, es)
  | _ => none

/-- A leader records no success of an earlier term. -/
def RecordsCurrentSuccess (s : RaftState) (c : Cause Call NetworkMessage) : Prop :=
  ∀ t ∈ successOf c, s.role = .leader → s.currentTerm ≤ t

/-- A node that accepts entries without a conflict has no entry of another term behind them:
    all that it reports, and may commit, is the leader's. -/
def CoversTail (s : RaftState) (c : Cause Call NetworkMessage) : Prop :=
  ∀ m ∈ entriesOf c, s.currentTerm ≤ m.1 → prevMatches s.log m.2.1 m.2.2.1 →
    ¬ conflicts s.log m.2.2.2 → ∀ e ∈ s.log.drop (m.2.1 + m.2.2.2.length), e.term = m.1

instance (s : RaftState) : DecidablePred (RecordsCurrentSuccess s) := fun c =>
  inferInstanceAs (Decidable (∀ t ∈ successOf c, _))

instance (s : RaftState) : DecidablePred (CoversTail s) := fun c =>
  inferInstanceAs (Decidable (∀ m ∈ entriesOf c, _))

/-- The successes that are recorded are of no earlier term. -/
theorem RecordsCurrentSuccess.le {s : RaftState} {m : NetworkMessage}
    (h : RecordsCurrentSuccess s (.recv m)) {t mi : ℕ}
    (hm : m.payload = .raft (.appendEntriesResponse t true mi)) (hr : s.role = .leader) :
    s.currentTerm ≤ t := by
  obtain ⟨i, j, pl⟩ := m
  cases hm
  exact h t rfl hr

/-- Entries that are accepted leave only entries of their term behind them. -/
theorem CoversTail.tail {s : RaftState} {m : NetworkMessage} (h : CoversTail s (.recv m))
    {t : ℕ} {l : NodeId} {pi pt : ℕ} {es : List LogEntry} {lc : ℕ}
    (hm : m.payload = .raft (.appendEntries t l pi pt es lc)) (ht : s.currentTerm ≤ t)
    (hprev : prevMatches s.log pi pt) (hno : ¬ conflicts s.log es) :
    ∀ e ∈ s.log.drop (pi + es.length), e.term = t := by
  obtain ⟨i, j, pl⟩ := m
  cases hm
  exact h (t, pi, pt, es) rfl ht hprev hno

end Raft

end ConsensusBench
