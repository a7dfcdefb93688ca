import ConsensusBench.Raft.Log

namespace ConsensusBench

/-!
# A Raft follower catches up

A leader and one follower alone: the leader sends an `AppendEntries`, the follower answers, and
the leader handles the answer (`exchange`), until the follower accepts (`catchUp`).

* `exchange_cases` — a round is refused, and then the leader starts one entry earlier and the
  follower has lost only entries that the leader does not have; or it is accepted, and then the
  follower has all of the leader's log.
* `catch_up` — so the follower accepts after at most `next_index` rounds.
-/

open RaftNode

namespace Raft

/-! ### Rounds -/

/-- What a round leaves: the leader, the follower, and whether the follower accepted. -/
structure Round where
  leader : RaftState
  follower : RaftState
  success : Bool

/-- Whether a message reports a success. -/
def reportsSuccess (msg : NetworkMessage) : Bool :=
  match msg.payload with
  | .raft (.appendEntriesResponse _ success _) => success
  | _ => false

variable (leader follower : RaftNode)

/-- One `AppendEntries` for the follower, handled by it, and its answer, handled by the leader. -/
def exchange (ls fs : RaftState) : Option Round :=
  (follower.handleMessage fs (leader.buildAppendEntries ls follower.id)).bind fun (fs, out) =>
    match out with
    | [response] => (leader.handleMessage ls response).map fun (ls, _) =>
        { leader := ls, follower := fs, success := reportsSuccess response }
    | _ => none

/-- Rounds until the follower accepts, at most `k`: the refused ones and the accepted one. -/
def catchUp : ℕ → RaftState → RaftState → Option (List Round × Round)
  | 0, _, _ => none
  | k + 1, ls, fs => (exchange leader follower ls fs).bind fun r =>
      if r.success then some ([], r)
      else (catchUp k r.leader r.follower).map fun (refused, last) => (r :: refused, last)

/-- The leader's `next_index` for node `j`. -/
def nextFor (ls : RaftState) (j : NodeId) : ℕ := (ls.nextIndex.lookup j).getD 1

/-! ### Logs that can be brought together -/

/-- The leader `ls` can bring the follower `fs` up to date. -/
structure CanCatchUp (ls fs : RaftState) : Prop where
  leads : ls.role = .leader
  term_le : fs.currentTerm ≤ ls.currentTerm
  commit_le : ls.commitIndex ≤ ls.log.length
  indexed : Indexed ls.log
  indexed_follower : Indexed fs.log
  term_pos : ∀ e ∈ ls.log, 1 ≤ e.term
  term_pos_follower : ∀ e ∈ fs.log, 1 ≤ e.term
  matching : LogMatching fs.log ls.log
  commit_le_follower : fs.commitIndex ≤ fs.log.length
  committed : fs.log.take fs.commitIndex <+: ls.log

instance (log log' : List LogEntry) : Decidable (LogMatching log log') :=
  decidable_of_iff (∀ (k : Fin log.length) (k' : Fin log'.length), k.val = k'.val →
      (log.get k).term = (log'.get k').term → log.take (k + 1) = log'.take (k + 1)) <| by
    constructor
    · intro h k x y hx hy ht
      obtain ⟨hk, rfl⟩ := List.getElem?_eq_some_iff.mp hx
      obtain ⟨hk', rfl⟩ := List.getElem?_eq_some_iff.mp hy
      exact h ⟨k, hk⟩ ⟨k, hk'⟩ rfl ht
    · intro h k k' hkk ht
      refine h k _ _ (List.getElem?_eq_getElem k.isLt) ?_ ht
      rw [hkk]
      exact List.getElem?_eq_getElem k'.isLt

/-- `F'` has the entries of `F` that have the term of the entry of `L` at their position. -/
def Keeps (L F F' : List LogEntry) : Prop :=
  ∀ (k : ℕ) (e x : LogEntry), F[k]? = some e → L[k]? = some x → e.term = x.term →
    F'[k]? = some e

section Logs

variable {L F F' F'' : List LogEntry}

theorem take_of_prefix (h : F' <+: F) {k : ℕ} (hk : k ≤ F'.length) : F'.take k = F.take k := by
  obtain ⟨u, rfl⟩ := h
  exact (List.take_append_of_le_length hk).symm

theorem Keeps.refl (L F : List LogEntry) : Keeps L F F := fun _ _ _ he _ _ => he

theorem Keeps.trans (h : Keeps L F F') (h' : Keeps L F' F'') : Keeps L F F'' :=
  fun k e x he hx ht => h' k e x (h k e x he hx ht) hx ht

/-- The leader's log has whatever it shares with another one. -/
theorem Keeps.of_matching (h : LogMatching F L) : Keeps L F L := by
  intro k e x he hx ht
  have htake := h k e x he hx ht
  rw [take_succ_eq he, take_succ_eq hx] at htake
  obtain ⟨_, hlast⟩ := List.append_inj' htake rfl
  rw [hx, List.singleton_inj.mp hlast]

/-- Entries shared at a position are shared before it. -/
theorem LogMatching.below (h : LogMatching F L) {p k : ℕ} (hpk : p ≤ k) {e x y z : LogEntry}
    (he : F[k]? = some e) (hx : L[k]? = some x) (ht : e.term = x.term) (hy : F[p]? = some y)
    (hz : L[p]? = some z) : y = z := by
  have htake := h k e x he hx ht
  have hp : p < k + 1 := Nat.lt_succ_of_le hpk
  rw [← List.getElem?_take_of_lt hp, htake, List.getElem?_take_of_lt hp, hz] at hy
  exact (Option.some.inj hy).symm

/-- **Cutting a conflicting log** loses nothing that the leader has: an entry at position `p` with
    another term than the leader's, or behind the leader's log, has only such entries behind it. -/
theorem Keeps.cut (h : LogMatching F L) {p : ℕ} {y : LogEntry} (hy : F[p]? = some y)
    (hne : ∀ z, L[p]? = some z → y.term ≠ z.term) : Keeps L F (F.take p) := by
  intro k e x he hx ht
  rcases Nat.lt_or_ge k p with hlt | hge
  · rw [List.getElem?_take_of_lt hlt]
    exact he
  · -- the leader has an entry there, with which the one at `p` would agree
    obtain ⟨hk, _⟩ := List.getElem?_eq_some_iff.mp hx
    have hz : L[p]? = some L[p] := List.getElem?_eq_getElem (lt_of_le_of_lt hge hk)
    exact absurd (by rw [h.below hge he hx ht hy hz]) (hne _ hz)

end Logs

/-! ### One round -/

section Exchange

variable {ls fs : RaftState}

/-- What the leader sends starts behind the entry before `next_index`, and names its term; behind
    the end of the log the term is `0`. -/
theorem buildAppendEntries_next (ls : RaftState) (j : NodeId) :
    ∃ pt, leader.buildAppendEntries ls j = ⟨leader.id, j, .raft (.appendEntries ls.currentTerm
        leader.id (nextFor ls j - 1) pt (ls.log.drop (nextFor ls j - 1)) ls.commitIndex)⟩ ∧
      (prevMatches ls.log (nextFor ls j - 1) pt ∨
        (ls.log.length < nextFor ls j - 1 ∧ pt = 0)) := by
  refine ⟨_, rfl, ?_⟩
  obtain ⟨_, _, _, _, hprev⟩ :=
    buildAppendEntries_eq (rfl : (leader.buildAppendEntries ls j).payload = _)
  exact hprev

/-- **The follower refuses** what does not match, and keeps what it shares with the leader. -/
theorem CanCatchUp.refuses (h : CanCatchUp ls fs) {p pt : ℕ} (hno : ¬ prevMatches fs.log p pt)
    (hsent : prevMatches ls.log p pt ∨ (ls.log.length < p ∧ pt = 0)) (es : List LogEntry)
    (lc : ℕ) : ∃ F, follower.handleAppendEntries fs leader.id ls.currentTerm leader.id p pt es lc =
        some ({ follow fs ls.currentTerm leader.id with log := F }, [follower.msgTo leader.id
          (.raft (.appendEntriesResponse ls.currentTerm false F.length))]) ∧
      0 < p ∧ F <+: fs.log ∧ fs.commitIndex ≤ F.length ∧ Keeps ls.log fs.log F := by
  have hpos : 0 < p := by
    by_contra h0
    exact hno (.inl (by omega))
  unfold handleAppendEntries
  rw [if_neg (not_lt.mpr h.term_le)]
  dsimp only
  rw [if_pos hpos]
  cases hy : fs.log[p - 1]? with
  | none =>
    have hfollow : (resetElectionTimeout { fs with
        currentTerm := ls.currentTerm, role := .follower, leaderId := some leader.id,
        leaderIdAtomic := leader.id }).log[p - 1]? = none := hy
    rw [hfollow]
    exact ⟨fs.log, rfl, hpos, List.prefix_refl _, h.commit_le_follower, Keeps.refl _ _⟩
  | some y =>
    have hfollow : (resetElectionTimeout { fs with
        currentTerm := ls.currentTerm, role := .follower, leaderId := some leader.id,
        leaderIdAtomic := leader.id }).log[p - 1]? = some y := hy
    have hne : y.term ≠ pt := fun ht => hno (.inr ⟨y, hy, ht⟩)
    have hother : ∀ z, ls.log[p - 1]? = some z → y.term ≠ z.term := by
      intro z hz
      rcases hsent with h0 | ⟨hlen, _⟩
      · obtain ⟨z', hz', ht⟩ := h0.resolve_left (by omega)
        rw [hz, Option.some.injEq] at hz'
        rw [hz', ht]
        exact hne
      · obtain ⟨hlt, _⟩ := List.getElem?_eq_some_iff.mp hz
        omega
    rw [hfollow]
    dsimp only
    rw [if_pos hne]
    refine ⟨fs.log.take (p - 1), rfl, hpos, List.take_prefix _ _, ?_,
      Keeps.cut h.matching hy hother⟩
    -- the entry that conflicts is not among the committed ones
    obtain ⟨hlt, _⟩ := List.getElem?_eq_some_iff.mp hy
    rw [List.length_take]
    by_contra hcut
    have hin : p - 1 < fs.commitIndex := by omega
    obtain ⟨u, hu⟩ := h.committed
    have hz : ls.log[p - 1]? = some y := by
      rw [← hu, List.getElem?_append_left (by rw [List.length_take]; omega),
        List.getElem?_take_of_lt hin, hy]
    exact hother y hz rfl

/-- **The follower accepts** what matches; then it has the leader's log. -/
theorem CanCatchUp.accepts (h : CanCatchUp ls fs) {p pt : ℕ} (hyes : prevMatches fs.log p pt)
    (hsent : prevMatches ls.log p pt ∨ (ls.log.length < p ∧ pt = 0)) :
    ∃ fs', follower.handleAppendEntries fs leader.id ls.currentTerm leader.id p pt
        (ls.log.drop p) ls.commitIndex = some (fs', [follower.msgTo leader.id
          (.raft (.appendEntriesResponse ls.currentTerm true fs'.log.length))]) ∧
      ls.log <+: fs'.log ∧ fs'.commitIndex = max fs.commitIndex ls.commitIndex ∧
      Keeps ls.log fs.log fs'.log := by
  -- term `0` matches no entry, so the message does not start behind the leader's log
  have hmatch : prevMatches ls.log p pt := by
    rcases hsent with hmatch | ⟨hlen, rfl⟩
    · exact hmatch
    · obtain ⟨y, hy, ht⟩ := hyes.resolve_left (by omega)
      have hpos := h.term_pos_follower y (List.mem_of_getElem? hy)
      omega
  have hple : p ≤ ls.log.length := by
    rcases hmatch with h0 | ⟨z, hz, _⟩
    · omega
    · obtain ⟨hlt, _⟩ := List.getElem?_eq_some_iff.mp hz
      omega
  -- entries behind the leader's log stay, if nothing before them conflicts
  let log := if ls.log <+: fs.log then fs.log else ls.log
  have hfold : (ls.log.drop p).foldlM appendEntry fs.log = some log :=
    foldlM_appendEntry h.indexed h.matching hple (take_eq_of_prevMatches h.matching hyes hmatch)
  have hhas : ls.log <+: log := by
    by_cases hpre : ls.log <+: fs.log
    · rw [show log = fs.log from if_pos hpre]
      exact hpre
    · rw [show log = ls.log from if_neg hpre]
  have hkeeps : Keeps ls.log fs.log log := by
    by_cases hpre : ls.log <+: fs.log
    · rw [show log = fs.log from if_pos hpre]
      exact Keeps.refl _ _
    · rw [show log = ls.log from if_neg hpre]
      exact Keeps.of_matching h.matching
  have hlen : ls.commitIndex ≤ log.length := le_trans h.commit_le hhas.length_le
  have hcommitted : ∃ fs', (if ls.commitIndex > fs.commitIndex then
        commitUpTo { follow fs ls.currentTerm leader.id with log := log }
          (min ls.commitIndex log.length)
      else some { follow fs ls.currentTerm leader.id with log := log }) = some fs' ∧
      fs'.log = log ∧ fs'.currentTerm = ls.currentTerm ∧
      fs'.commitIndex = max fs.commitIndex ls.commitIndex := by
    by_cases hlc : ls.commitIndex > fs.commitIndex
    · rw [if_pos hlc, min_eq_left hlen]
      refine ⟨_, commitUpTo_eq_some.mpr ⟨?_, ?_, rfl⟩, rfl, rfl, (max_eq_right_of_lt hlc).symm⟩
      · exact le_of_lt hlc
      · exact hlen
    · rw [if_neg hlc]
      exact ⟨_, rfl, rfl, rfl, (max_eq_left (not_lt.mp hlc)).symm⟩
  obtain ⟨fs', hfs', hlog, hterm, hcommit⟩ := hcommitted
  have haccept : follower.acceptEntries (follow fs ls.currentTerm leader.id) leader.id
      (ls.log.drop p) ls.commitIndex = some (fs', [follower.msgTo leader.id
        (.raft (.appendEntriesResponse ls.currentTerm true fs'.log.length))]) := by
    have hfold' : (ls.log.drop p).foldlM appendEntry (follow fs ls.currentTerm leader.id).log =
        some log := hfold
    rw [acceptEntries, hfold', Option.bind_some]
    show Option.map _ (if ls.commitIndex > fs.commitIndex then _ else _) = _
    rw [hfs', Option.map_some, hterm, hlog]
  refine ⟨fs', ?_, by rw [hlog]; exact hhas, hcommit, by rw [hlog]; exact hkeeps⟩
  unfold handleAppendEntries
  rw [if_neg (not_lt.mpr h.term_le)]
  dsimp only
  split
  · rename_i hpos
    obtain ⟨y, hy, ht⟩ := hyes.resolve_left (by omega)
    have hfollow : (resetElectionTimeout { fs with
        currentTerm := ls.currentTerm, role := .follower, leaderId := some leader.id,
        leaderIdAtomic := leader.id }).log[p - 1]? = some y := hy
    rw [hfollow]
    dsimp only
    rw [if_neg (not_not.mpr ht)]
    exact haccept
  · exact haccept

/-- The leader retries one entry earlier; what it sends then is what the next round sends. -/
theorem leader_retries (hr : ls.role = .leader) (j : NodeId) (mi : ℕ) :
    leader.handleMessage ls ⟨j, leader.id,
        .raft (.appendEntriesResponse ls.currentTerm false mi)⟩ =
      some (backOff ls j, [leader.buildAppendEntries (backOff ls j) j]) := by
  show leader.handleAppendEntriesResponse ls j ls.currentTerm false mi = _
  rw [handleAppendEntriesResponse, if_neg (lt_irrefl _), if_neg (not_not.mpr hr),
    if_neg (by decide)]
  rfl

/-- The leader records a success, and may commit. -/
theorem leader_records (hr : ls.role = .leader) (j : NodeId) (mi : ℕ) :
    ∃ ls', leader.handleMessage ls ⟨j, leader.id,
        .raft (.appendEntriesResponse ls.currentTerm true mi)⟩ = some (ls', []) ∧
      ls'.log = ls.log := by
  have hform : leader.handleMessage ls ⟨j, leader.id,
      .raft (.appendEntriesResponse ls.currentTerm true mi)⟩ =
        leader.handleAppendEntriesResponse ls j ls.currentTerm true mi := rfl
  rw [hform, handleAppendEntriesResponse, if_neg (lt_irrefl _), if_neg (not_not.mpr hr),
    if_pos rfl]
  dsimp only
  split
  · exact ⟨_, rfl, rfl⟩
  · rename_i k hk
    obtain ⟨hlt, hle, _⟩ := nextCommit_eq_some hk
    rw [commitUpTo_eq_some.mpr ⟨le_of_lt hlt, hle, rfl⟩]
    exact ⟨_, rfl, rfl⟩

theorem nextFor_backOff {j : NodeId} (hgt : 1 < nextFor ls j) :
    nextFor (backOff ls j) j = nextFor ls j - 1 := by
  unfold nextFor backOff at *
  rw [if_pos hgt]
  dsimp only
  rw [HashMap.lookup_insert_ite, if_pos rfl, Option.getD_some]

/-- A log that was cut can still be brought up to date. -/
theorem CanCatchUp.retry (h : CanCatchUp ls fs) (j : NodeId) {F : List LogEntry}
    (hpre : F <+: fs.log) (hcommit : fs.commitIndex ≤ F.length) :
    CanCatchUp (backOff ls j) { follow fs ls.currentTerm leader.id with log := F } where
  leads := (backOff_role ls j).trans h.leads
  term_le := le_of_eq (backOff_currentTerm ls j).symm
  commit_le := by
    rw [backOff_commitIndex, backOff_log]
    exact h.commit_le
  indexed := by
    rw [backOff_log]
    exact h.indexed
  indexed_follower k e he := by
    obtain ⟨u, hu⟩ := hpre
    obtain ⟨hk, _⟩ := List.getElem?_eq_some_iff.mp he
    exact h.indexed_follower k e (by rw [← hu, List.getElem?_append_left hk]; exact he)
  term_pos := by
    rw [backOff_log]
    exact h.term_pos
  term_pos_follower e he := h.term_pos_follower e (hpre.subset he)
  matching := by
    rw [backOff_log]
    intro k x y hx hy ht
    obtain ⟨hk, _⟩ := List.getElem?_eq_some_iff.mp hx
    have hx' : fs.log[k]? = some x := by
      obtain ⟨u, hu⟩ := hpre
      rw [← hu, List.getElem?_append_left hk]
      exact hx
    rw [← h.matching k x y hx' hy ht]
    exact take_of_prefix hpre (Nat.succ_le_of_lt hk)
  commit_le_follower := hcommit
  committed := by
    rw [backOff_log]
    have hsame : F.take fs.commitIndex = fs.log.take fs.commitIndex :=
      take_of_prefix hpre hcommit
    show F.take fs.commitIndex <+: ls.log
    rw [hsame]
    exact h.committed

/-- **One round**: the follower refuses and the leader starts one entry earlier, or it accepts
    and has the leader's log. -/
theorem exchange_cases (h : CanCatchUp ls fs) :
    (∃ F, exchange leader follower ls fs = some { leader := backOff ls follower.id
                                                  follower := { follow fs ls.currentTerm leader.id
                                                    with log := F }
                                                  success := false } ∧
      1 < nextFor ls follower.id ∧ F <+: fs.log ∧ fs.commitIndex ≤ F.length ∧
        Keeps ls.log fs.log F) ∨
    (∃ r, exchange leader follower ls fs = some r ∧ r.success = true ∧ r.leader.log = ls.log ∧
      ls.log <+: r.follower.log ∧
      r.follower.commitIndex = max fs.commitIndex ls.commitIndex ∧
      Keeps ls.log fs.log r.follower.log) := by
  obtain ⟨pt, hbuild, hsent⟩ := buildAppendEntries_next leader ls follower.id
  have hhandle : follower.handleMessage fs (leader.buildAppendEntries ls follower.id) =
      follower.handleAppendEntries fs leader.id ls.currentTerm leader.id
        (nextFor ls follower.id - 1) pt (ls.log.drop (nextFor ls follower.id - 1))
        ls.commitIndex := by
    rw [hbuild]
    rfl
  by_cases hprev : prevMatches fs.log (nextFor ls follower.id - 1) pt
  · right
    obtain ⟨fs', haccept, hhas, hcommit, hkeeps⟩ :=
      h.accepts leader follower hprev hsent
    obtain ⟨ls', hrecord, hlog⟩ :=
      leader_records leader h.leads follower.id fs'.log.length
    refine ⟨⟨ls', fs', true⟩, ?_, rfl, hlog, hhas, hcommit, hkeeps⟩
    rw [exchange, hhandle, haccept, Option.bind_some]
    show Option.map _ (leader.handleMessage ls ⟨follower.id, leader.id, _⟩) = _
    rw [hrecord]
    rfl
  · left
    obtain ⟨F, hrefuse, hpos, hpre, hcommit, hkeeps⟩ :=
      h.refuses leader follower hprev hsent
        (ls.log.drop (nextFor ls follower.id - 1)) ls.commitIndex
    refine ⟨F, ?_, by omega, hpre, hcommit, hkeeps⟩
    rw [exchange, hhandle, hrefuse, Option.bind_some]
    show Option.map _ (leader.handleMessage ls ⟨follower.id, leader.id, _⟩) = _
    rw [leader_retries leader h.leads]
    rfl

/-- A follower that keeps an entry of the leader's still has it. -/
theorem Keeps.mem {F : List LogEntry} (hL : Indexed ls.log) (hF : Indexed fs.log)
    (h : Keeps ls.log fs.log F) {e x : LogEntry} (he : e ∈ fs.log) (hx : x ∈ ls.log)
    (hidx : e.index = x.index) (ht : e.term = x.term) : e ∈ F := by
  obtain ⟨k, hk⟩ := List.mem_iff_getElem?.mp he
  obtain ⟨k', hk'⟩ := List.mem_iff_getElem?.mp hx
  have hsame : k = k' := by
    have h1 := hF k e hk
    have h2 := hL k' x hk'
    omega
  subst hsame
  exact List.mem_of_getElem? (h k e x hk hk' ht)

/-! ### Catching up -/

/-- What rounds have brought about: the refused ones left the leader's log and commit index
    alone, no round took an entry from the follower that the leader has, and the accepted one
    gave it the rest. -/
structure CaughtUp (ls fs : RaftState) (refused : List Round) (last : Round) : Prop where
  failed : ∀ r ∈ refused, r.success = false ∧ r.leader.log = ls.log ∧
    r.leader.commitIndex = ls.commitIndex
  accepted : last.success = true
  kept : ∀ r ∈ refused ++ [last], ∀ e ∈ fs.log, ∀ x ∈ ls.log, e.index = x.index →
    e.term = x.term → e ∈ r.follower.log
  complete : ls.log <+: last.follower.log
  committed : last.follower.commitIndex = max fs.commitIndex ls.commitIndex

/-- **A follower catches up** after at most `next_index` rounds. -/
theorem catch_up (h : CanCatchUp ls fs) (hnext : 1 ≤ nextFor ls follower.id) :
    ∃ refused last, catchUp leader follower (nextFor ls follower.id) ls fs = some (refused, last) ∧
      refused.length + 1 ≤ nextFor ls follower.id ∧ CaughtUp ls fs refused last := by
  induction hk : nextFor ls follower.id generalizing ls fs with
  | zero => omega
  | succ k ih =>
    -- by induction on `next_index`, which a refused round lowers by one
    rcases exchange_cases leader follower h with
      ⟨F, hround, hgt, hpre, hcommit, hkeeps⟩ | ⟨r, hround, hsucc, hlog, hhas, hcommit, hkeeps⟩
    · have hretry := h.retry leader follower.id hpre hcommit
      have hnext' := nextFor_backOff hgt
      obtain ⟨refused, last, hrest, hlen, hdone⟩ := ih hretry (by omega) (by omega)
      refine ⟨⟨backOff ls follower.id, { follow fs ls.currentTerm leader.id with log := F },
        false⟩ :: refused, last, ?_, ?_, ?_, hdone.accepted, ?_, ?_, ?_⟩
      · rw [catchUp, hround, Option.bind_some, if_neg Bool.false_ne_true, hrest]
        rfl
      · rw [List.length_cons]
        omega
      · intro r hr
        rcases List.mem_cons.mp hr with rfl | hr
        · exact ⟨rfl, backOff_log ls _, backOff_commitIndex ls _⟩
        · obtain ⟨hfail, hl, hc⟩ := hdone.failed r hr
          exact ⟨hfail, hl.trans (backOff_log ls _), hc.trans (backOff_commitIndex ls _)⟩
      · intro r hr e he x hx hidx ht
        have hmem := hkeeps.mem h.indexed h.indexed_follower he hx hidx ht
        rcases List.mem_cons.mp hr with rfl | hr
        · exact hmem
        · exact hdone.kept r hr e hmem x (by rw [backOff_log]; exact hx) hidx ht
      · rw [← backOff_log ls follower.id]
        exact hdone.complete
      · rw [hdone.committed, backOff_commitIndex]
        rfl
    · refine ⟨[], r, ?_, ?_, ?_, hsucc, ?_, hhas, hcommit⟩
      · rw [catchUp, hround, Option.bind_some, if_pos hsucc]
      · exact Nat.succ_le_succ (Nat.zero_le k)
      · intro r' hr'
        exact absurd hr' (by simp)
      · intro r' hr' e he x hx hidx ht
        rw [List.nil_append, List.mem_singleton] at hr'
        rw [hr']
        exact hkeeps.mem h.indexed h.indexed_follower he hx hidx ht

end Exchange

/-- A leader of term `2` that believes more of the follower's log than there is. -/
def eagerLeader : RaftState :=
  { (newSeeded 0 3 ⟨fun _ => 0⟩).2 with
    currentTerm := 2
    role := .leader
    log := [⟨1, 1, ⟨[0x70]⟩⟩, ⟨2, 2, ⟨[0x71]⟩⟩]
    commitIndex := 2
    nextIndex := (∅ : HashMap NodeId ℕ).insert 1 4 }

/-- A follower with two entries that the leader does not have. -/
def strayFollower : RaftState :=
  { (newSeeded 1 3 ⟨fun _ => 0⟩).2 with
    currentTerm := 1
    log := [⟨1, 1, ⟨[0x70]⟩⟩, ⟨1, 2, ⟨[0x72]⟩⟩, ⟨1, 3, ⟨[0x73]⟩⟩]
    commitIndex := 1 }

/-- It loses both, one a round, and has the leader's log after three rounds. -/
theorem catch_up_stray : (∃ refused last, catchUp ⟨0, 3, [1, 2]⟩ ⟨1, 3, [0, 2]⟩ 4 eagerLeader
      strayFollower = some (refused, last) ∧ refused.length + 1 ≤ 4 ∧
    CaughtUp eagerLeader strayFollower refused last) ∧
    catchUp ⟨0, 3, [1, 2]⟩ ⟨1, 3, [0, 2]⟩ 2 eagerLeader strayFollower = none := by
  have h : CanCatchUp eagerLeader strayFollower := by constructor <;> decide
  exact ⟨catch_up ⟨0, 3, [1, 2]⟩ ⟨1, 3, [0, 2]⟩ h (by decide), by decide⟩

end Raft

end ConsensusBench
