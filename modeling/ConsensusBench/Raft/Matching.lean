import ConsensusBench.Raft.Safety

namespace ConsensusBench

/-!
# Raft log matching

In the runs in which no term has two leaders, however these came about: a handler may count
votes and successes of earlier terms.

The log of the leader of each term is recorded when it wins and grows as it appends
(`Recorded`).  Every stored entry is in the log of the leader of its term, together with all
entries before it, and an `AppendEntries` is made from a part of such a log.

* `Recorded.step` — every step keeps the record, unless it gives a term a second leader.
* `logs_match` — so the logs of any two nodes match.
-/

open AsyncNet RaftNode
open Replication (Traced)

namespace Raft

/-! ### The record -/

/-- The leaders' logs: `a` records, for every term that had a leader, who it was and the log it
    had last. -/
structure Recorded (a : Replication.State NodeId LogEntry) (nodes : NodeId → RaftState)
    (hist : History RaftState) : Prop where
  traced : ∀ i, Traced LogEntry.term a (nodes i).log
  leads : ∀ t c L, a.lead t = some (c, L) →
    Traced LogEntry.term a L ∧ Indexed L ∧ WasLeader hist c t ∧ 0 < t
  leader : ∀ i, (nodes i).role = .leader →
    a.lead (nodes i).currentTerm = some (i, (nodes i).log)
  snapshot : ∀ o ∈ hist, o.after.role = .leader →
    ∃ L, a.lead o.after.currentTerm = some (o.node, L) ∧ o.after.log <+: L
  candidate : ∀ i, (nodes i).role = .candidate →
    ¬ WasLeader hist i (nodes i).currentTerm ∧ 0 < (nodes i).currentTerm
  term_le : ∀ o ∈ hist, o.after.currentTerm ≤ (nodes o.node).currentTerm

section Record

variable {a a' : Replication.State NodeId LogEntry} {nodes : NodeId → RaftState}
variable {hist : History RaftState}

theorem wasLeader_cons {o : NodeStep RaftState} {i : NodeId} {t : ℕ} :
    WasLeader (o :: hist) i t ↔
      (o.node = i ∧ o.after.role = .leader ∧ o.after.currentTerm = t) ∨ WasLeader hist i t := by
  simp only [WasLeader, List.mem_cons, exists_eq_or_imp]

/-- Entries of a traced log carry terms that had leaders. -/
theorem Recorded.term_pos (h : Recorded a nodes hist) {i : NodeId} {k : ℕ} {e : LogEntry}
    (he : (nodes i).log[k]? = some e) : 0 < e.term := by
  have hpre : (nodes i).log.take k ++ [e] <+: (nodes i).log := by
    rw [← take_succ_eq he]
    exact List.take_prefix _ _
  obtain ⟨c, L, hl, _⟩ := h.traced i _ _ hpre
  exact (h.leads _ c L hl).2.2.2

theorem Recorded.indexed (h : Recorded a nodes hist) (i : NodeId) : Indexed (nodes i).log :=
  indexed_of_traced (fun t c L hl => (h.leads t c L hl).2.1) (h.traced i)

theorem Recorded.matching (h : Recorded a nodes hist) (i j : NodeId) :
    LogMatching (nodes i).log (nodes j).log :=
  fun _ _ _ hx hy ht => (h.traced i).matching (h.traced j) hx hy ht

/-! ### Every step keeps the record -/

/-- The terms that a step of a node takes it through. -/
structure Terms (s s' : RaftState) : Prop where
  le : s.currentTerm ≤ s'.currentTerm
  candidate : s'.role = .candidate → 0 < s'.currentTerm ∧
    (s'.currentTerm = s.currentTerm + 1 ∨
      (s.role = .candidate ∧ s'.currentTerm = s.currentTerm))

/-- **A step keeps the record** if the record grows to one that has the node's log and, if the
    node leads, has it as the leader's. -/
theorem Recorded.advance (h : Recorded a nodes hist) {o : NodeStep RaftState}
    (hbefore : o.before = nodes o.node)
    (hgrow : ∀ t c L, a.lead t = some (c, L) → ∃ L', a'.lead t = some (c, L') ∧ L <+: L')
    (hnew : ∀ t c L, a'.lead t = some (c, L) → a.lead t = some (c, L) ∨
      (c = o.node ∧ t = o.after.currentTerm ∧ L = o.after.log ∧ o.after.role = .leader ∧
        0 < t ∧ Indexed L))
    (hlog : Traced LogEntry.term a' o.after.log)
    (hlead : o.after.role = .leader →
      a'.lead o.after.currentTerm = some (o.node, o.after.log))
    (hterms : Terms (nodes o.node) o.after) :
    Recorded a' (Function.update nodes o.node o.after) (o :: hist) where
  traced i := by
    by_cases hi : i = o.node
    · subst hi
      rw [Function.update_self]
      exact hlog
    · rw [Function.update_of_ne hi]
      exact (h.traced i).grow hgrow
  leads t c L hl := by
    rcases hnew t c L hl with hold | ⟨rfl, rfl, rfl, hr, hpos, hidx⟩
    · obtain ⟨htr, hidx, hwas, hpos⟩ := h.leads t c L hold
      exact ⟨htr.grow hgrow, hidx, wasLeader_cons.mpr (.inr hwas), hpos⟩
    · exact ⟨hlog, hidx, wasLeader_cons.mpr (.inl ⟨rfl, hr, rfl⟩), hpos⟩
  leader i hr := by
    by_cases hi : i = o.node
    · subst hi
      rw [Function.update_self] at hr ⊢
      exact hlead hr
    · -- a record of the node's term that was replaced is one of the node that moves
      rw [Function.update_of_ne hi] at hr ⊢
      obtain ⟨L, hl, _⟩ := hgrow _ _ _ (h.leader i hr)
      rcases hnew _ _ _ hl with hold | ⟨hc, _⟩
      · rw [hl, ← hold, h.leader i hr]
      · exact absurd hc hi
  snapshot o' ho' hr := by
    rcases List.mem_cons.mp ho' with rfl | hold
    · exact ⟨o'.after.log, hlead hr, List.prefix_refl _⟩
    · obtain ⟨L, hl, hpre⟩ := h.snapshot o' hold hr
      obtain ⟨L', hl', hL⟩ := hgrow _ _ _ hl
      exact ⟨L', hl', hpre.trans hL⟩
  candidate i hr := by
    rw [wasLeader_cons]
    by_cases hi : i = o.node
    · subst hi
      rw [Function.update_self] at hr ⊢
      obtain ⟨hpos, hwhence⟩ := hterms.candidate hr
      refine ⟨?_, hpos⟩
      rintro (⟨_, hl, _⟩ | hwas)
      · exact absurd (hr.symm.trans hl) (by decide)
      · rcases hwhence with hstand | ⟨hr', hsame⟩
        · -- no step was in the term in which the node stands now
          obtain ⟨o', ho', hnode, _, ht⟩ := hwas
          have hle := h.term_le o' ho'
          rw [hnode] at hle
          omega
        · rw [hsame] at hwas
          exact (h.candidate _ hr').1 hwas
    · rw [Function.update_of_ne hi] at hr ⊢
      obtain ⟨hno, hpos⟩ := h.candidate i hr
      refine ⟨?_, hpos⟩
      rintro (⟨hnode, _⟩ | hwas)
      · exact hi hnode.symm
      · exact hno hwas
  term_le o' ho' := by
    rcases List.mem_cons.mp ho' with rfl | hold
    · rw [Function.update_self]
    · by_cases hnode : o'.node = o.node
      · rw [hnode, Function.update_self]
        have hle := h.term_le o' hold
        rw [hnode] at hle
        exact le_trans hle hterms.le
      · rw [Function.update_of_ne hnode]
        exact h.term_le o' hold

/-- A step that leaves the record alone. -/
theorem Recorded.advance_quiet (h : Recorded a nodes hist) {o : NodeStep RaftState}
    (hbefore : o.before = nodes o.node) (hterms : Terms (nodes o.node) o.after)
    (hlog : Traced LogEntry.term a o.after.log)
    (hlead : o.after.role = .leader →
      a.lead o.after.currentTerm = some (o.node, o.after.log)) :
    Recorded a (Function.update nodes o.node o.after) (o :: hist) :=
  h.advance hbefore (fun _ _ L hl => ⟨L, hl, List.prefix_refl L⟩) (fun _ _ _ hl => .inl hl) hlog
    hlead hterms

/-- A step of a leader, whose log is recorded as that of the leader of its term. -/
theorem Recorded.advance_lead (h : Recorded a nodes hist) {o : NodeStep RaftState}
    (hbefore : o.before = nodes o.node) (hterms : Terms (nodes o.node) o.after)
    (hr : o.after.role = .leader) (hidx : Indexed o.after.log) (hpos : 0 < o.after.currentTerm)
    (hold : ∀ c L, a.lead o.after.currentTerm = some (c, L) → c = o.node ∧ L <+: o.after.log)
    (htraced : ∀ a', (∀ t c L, a.lead t = some (c, L) →
        ∃ L', a'.lead t = some (c, L') ∧ L <+: L') →
      a'.lead o.after.currentTerm = some (o.node, o.after.log) →
      Traced LogEntry.term a' o.after.log) :
    ∃ a', Recorded a' (Function.update nodes o.node o.after) (o :: hist) := by
  let a' : Replication.State NodeId LogEntry :=
    { a with lead := Function.update a.lead o.after.currentTerm (some (o.node, o.after.log)) }
  have hself : a'.lead o.after.currentTerm = some (o.node, o.after.log) :=
    Function.update_self ..
  have hgrow : ∀ t c L, a.lead t = some (c, L) → ∃ L', a'.lead t = some (c, L') ∧ L <+: L' := by
    intro t c L hl
    by_cases ht : t = o.after.currentTerm
    · subst ht
      obtain ⟨rfl, hpre⟩ := hold c L hl
      exact ⟨_, hself, hpre⟩
    · exact ⟨L, (Function.update_of_ne ht _ _).trans hl, List.prefix_refl L⟩
  refine ⟨a', h.advance hbefore hgrow (fun t c L hl => ?_) (htraced a' hgrow hself)
    (fun _ => hself) hterms⟩
  by_cases ht : t = o.after.currentTerm
  · rw [ht, hself, Option.some.injEq, Prod.mk.injEq] at hl
    obtain ⟨rfl, rfl⟩ := hl
    exact .inr ⟨rfl, ht, rfl, hr, by rw [ht]; exact hpos, hidx⟩
  · exact .inl ((Function.update_of_ne ht _ _).symm.trans hl)

end Record

section Steps

variable [Sha256] {n : ℕ} {rngs : NodeId → StdRng}
variable {ok : System.Guard NodeId RaftState Call NetworkMessage}
variable {w : World NodeId RaftState Call NetworkMessage}
variable {a : Replication.State NodeId LogEntry}

/-- **Accepting entries** leaves the log or takes over a part of a leader's log. -/
theorem Recorded.accept_log (h : Recorded a w.nodes w.history)
    (hw : (system n {} rngs).Reach ok w) {o : NodeStep RaftState}
    (hf : (system n {} rngs).Fires w o) {m : NetworkMessage} (hc : o.cause = .recv m)
    {t : ℕ} {l : NodeId} {pi pt : ℕ} {es : List LogEntry} {lc : ℕ} {log : List LogEntry}
    (hm : m.payload = .raft (.appendEntries t l pi pt es lc))
    (hprev : prevMatches o.before.log pi pt)
    (hlog : es.foldlM appendEntry o.before.log = some log) :
    Traced LogEntry.term a log := by
  obtain ⟨_, o₀, ho₀, _, _, _, x, hx, hsaid⟩ := recv_source hw hf hc
  rw [hm] at hx
  cases hx
  rw [hf.before_eq] at hprev hlog
  cases hsaid with
  | appendEntries _ hr hbuild =>
    obtain ⟨rfl, _, rfl, _, hsent⟩ := buildAppendEntries_eq (congrArg NetworkMessage.payload hbuild)
    obtain ⟨L, hl, hpart⟩ := h.snapshot o₀ ho₀ hr
    obtain ⟨htraced, hidx, _, _⟩ := h.leads _ _ _ hl
    have hF := h.traced o.node
    have hM : Traced LogEntry.term a o₀.after.log := htraced.restrict hpart
    have hmatch : LogMatching (w.nodes o.node).log o₀.after.log :=
      fun _ _ _ hx hy ht => hF.matching hM hx hy ht
    rcases hsent with hprevM | ⟨hlt, rfl⟩
    · have hle : pi ≤ o₀.after.log.length := by
        rcases hprevM with h0 | ⟨e, he, _⟩
        · omega
        · obtain ⟨hlt, _⟩ := List.getElem?_eq_some_iff.mp he
          omega
      rw [foldlM_appendEntry (hidx.part hpart) hmatch hle
        (take_eq_of_prevMatches hmatch hprev hprevM), Option.some.injEq] at hlog
      rw [← hlog]
      split
      · exact hF
      · exact hM
    · -- no entry has term `0`, so nobody accepts what names one
      rcases hprev with h0 | ⟨e, he, hzero⟩
      · omega
      · exact absurd hzero (Nat.ne_of_gt (h.term_pos he))

omit [Sha256] in
/-- A node takes part in an election of a later term, or of its own. -/
theorem Recorded.terms (h : Recorded a w.nodes w.history) {i : NodeId} {s' : RaftState}
    {c : Cause Call NetworkMessage} {out : List NetworkMessage}
    (heff : Effect (node n i) (w.nodes i) c s' out) : Terms (w.nodes i) s' where
  le := heff.term_mono
  candidate hr := by
    rcases heff.role_candidate hr with ⟨_, _, _, hstand⟩ | ⟨hr', hsame, _⟩
    · have ht : s'.currentTerm = (w.nodes i).currentTerm + 1 := by
        rw [hstand]
        rfl
      exact ⟨by omega, .inl ht⟩
    · exact ⟨by rw [hsame]; exact (h.candidate _ hr').2, .inr ⟨hr', hsame⟩⟩

/-- **Every step keeps the record**, unless it gives a term a second leader. -/
theorem Recorded.step (h : Recorded a w.nodes w.history) (hw : (system n {} rngs).Reach ok w)
    {o : NodeStep RaftState} (hf : (system n {} rngs).Fires w o)
    (hone : ∀ t i j, WasLeader (o :: w.history) i t → WasLeader (o :: w.history) j t → i = j) :
    ∃ a', Recorded a' (Function.update w.nodes o.node o.after) (o :: w.history) := by
  have heff := effect_of_fires hf
  have hs := hf.before_eq
  have hterms : Terms (w.nodes o.node) o.after := h.terms (hs ▸ heff)
  -- the log is kept or cut, grows by a proposal, or is taken over from a leader
  rcases heff.log_cases with ⟨hpre, hkeep⟩ | ⟨p, hr, happend⟩ |
    ⟨m, t, l, pi, pt, es, lc, hc, hm, hprev, hlog, hr⟩
  · have htraced : Traced LogEntry.term a o.after.log := by
      rw [hs] at hpre
      exact (h.traced o.node).restrict hpre
    by_cases hr : o.after.role = .leader
    · rcases heff.role_leader hr with ⟨hr', hsame⟩ | ⟨m, t, _, _, _, hr', _, hwon⟩
      · refine ⟨a, h.advance_quiet hs hterms htraced fun _ => ?_⟩
        rw [hsame, hkeep hr, hs]
        rw [hs] at hr'
        exact h.leader o.node hr'
      · -- nobody has led the term of a candidate, itself included
        have ht : o.after.currentTerm = (w.nodes o.node).currentTerm := by
          rw [hwon, ← hs]
          rfl
        rw [hs] at hr'
        obtain ⟨hno, hpos⟩ := h.candidate o.node hr'
        rw [← ht] at hno hpos
        refine h.advance_lead hs hterms hr ?_ hpos (fun c L hl => ?_)
          fun a' hgrow _ => htraced.grow hgrow
        · rw [hkeep hr, hs]
          exact h.indexed o.node
        · have hwas := (h.leads _ c L hl).2.2.1
          have hsame := hone _ c o.node (wasLeader_cons.mpr (.inr hwas))
            (wasLeader_cons.mpr (.inl ⟨rfl, hr, rfl⟩))
          rw [hsame] at hwas
          exact absurd hwas hno
    · exact ⟨a, h.advance_quiet hs hterms htraced fun hl => absurd hl hr⟩
  · rw [hs] at hr
    have hlead := h.leader o.node hr
    have hafter : o.after.role = .leader ∧ o.after.currentTerm = (w.nodes o.node).currentTerm ∧
        o.after.log = (w.nodes o.node).log ++
          [⟨(w.nodes o.node).currentTerm, (w.nodes o.node).log.length + 1, p⟩] := by
      rw [happend, hs]
      exact ⟨hr, rfl, rfl⟩
    obtain ⟨hr', ht, hlog⟩ := hafter
    refine h.advance_lead hs hterms hr' ?_ ?_ (fun c L hl => ?_) fun a' hgrow hself => ?_
    · rw [hlog]
      exact (h.indexed o.node).concat rfl
    · rw [ht]
      exact (h.leads _ _ _ hlead).2.2.2
    · rw [ht, hlead, Option.some.injEq, Prod.mk.injEq] at hl
      obtain ⟨rfl, rfl⟩ := hl
      rw [hlog]
      exact ⟨rfl, List.prefix_append _ _⟩
    · rw [ht] at hself
      rw [hlog] at hself ⊢
      exact ((h.traced o.node).grow hgrow).concat hself
  · exact ⟨a, h.advance_quiet hs hterms (h.accept_log hw hf hc hm hprev hlog) fun hl =>
      absurd (hr.symm.trans hl) (by decide)⟩

/-- **The leaders' logs are on record** in the runs in which no term has two leaders. -/
theorem recorded (hw : (system n {} rngs).Reach ok w)
    (hone : ∀ t i j, WasLeader w.history i t → WasLeader w.history j t → i = j) :
    ∃ a, Recorded a w.nodes w.history := by
  refine System.Reach.induct (N := fun nodes hist =>
    (∀ t i j, WasLeader hist i t → WasLeader hist j t → i = j) →
      ∃ a, Recorded a nodes hist) ?_ ?_ hw hone
  · intro _
    refine ⟨.initial, fun i => ?_, fun t c L hl => absurd hl (by simp [Replication.State.initial]),
      fun i hr => absurd hr (by simp [system, newSeeded]), fun o ho => absurd ho (by simp),
      fun i hr => absurd hr (by simp [system, newSeeded]), fun o ho => absurd ho (by simp)⟩
    intro P e hP
    exact absurd (List.prefix_nil.mp hP) (by simp)
  · intro w o hr ih _ hf hone
    have hold : ∀ t i j, WasLeader w.history i t → WasLeader w.history j t → i = j :=
      fun t i j hi hj => hone t i j (wasLeader_cons.mpr (.inr hi)) (wasLeader_cons.mpr (.inr hj))
    obtain ⟨a, ha⟩ := ih hold
    exact ha.step hr hf hone

/-- **Log matching**, in the runs in which no term has two leaders: if two logs have entries of
    one term at one index, they have the same entries up to it. -/
theorem logs_match (hw : (system n {} rngs).Reach System.anyStep w)
    (hone : ∀ t i j, WasLeader w.history i t → WasLeader w.history j t → i = j) :
    (∀ i, Indexed (w.nodes i).log) ∧
    ∀ i j, LogMatching (w.nodes i).log (w.nodes j).log := by
  obtain ⟨a, ha⟩ := recorded hw hone
  exact ⟨ha.indexed, ha.matching⟩

omit [Sha256] in
/-- Of three nodes one leads, and another one has taken over what it proposed. -/
theorem logs_match_three : ∃ w,
    (@system Sha256.sample 3 {} fun _ => ⟨fun _ => 0⟩).Reach System.anyStep w ∧
    (w.nodes 0).log = [⟨1, 1, ⟨[0x70]⟩⟩] ∧ (w.nodes 1).log = [⟨1, 1, ⟨[0x70]⟩⟩] ∧
    ∀ i j, LogMatching (w.nodes i).log (w.nodes j).log := by
  obtain ⟨w, hw, hlocal, h0, h1⟩ := System.Reach.exists_of_run
    (S := @system Sha256.sample 3 {} fun _ => ⟨fun _ => 0⟩)
    (P := fun w => (∀ o ∈ w.history, CountsCurrentVote o.before o.cause) ∧
      (w.nodes 0).log = [⟨1, 1, ⟨[0x70]⟩⟩] ∧ (w.nodes 1).log = [⟨1, 1, ⟨[0x70]⟩⟩])
    replicatedRun (by decide +kernel)
  have hone : ∀ t i j, WasLeader w.history i t → WasLeader w.history j t → i = j :=
    fun t i j hi hj => @leaders_unique Sha256.sample 3 _ _ w (fun _ _ _ h => h)
      (hw.locally hlocal) t i j hi hj
  exact ⟨w, hw, h0, h1, (@logs_match Sha256.sample 3 _ w hw hone).2⟩

end Steps

end Raft

end ConsensusBench
