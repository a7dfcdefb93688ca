import ConsensusBench.Harness
import ConsensusBench.Isolation

namespace ConsensusBench

/-!
# Letting time pass

Tests let time pass in rounds: they tick all nodes, and run the cluster to completion.

* `timed` — the calls of a number of rounds.
* `Cluster.runToCompletion_of_front` — what every delivery of the first pending message keeps, a run
  to completion keeps; `Cluster.runToCompletion_of_fading` is for messages with ever shorter lives.
* `Turning` — what is to be shown of one round, for nodes that depend on the time only;
  `Turning.rounds` is what follows for any number of them.
-/

/-- The calls of `T` rounds, of at most `k` steps each. -/
def timed (k T : ℕ) : List HarnessCall :=
  (List.replicate T [.call .tick, .call (.runToCompletion k)]).flatten

theorem timed_succ (k T : ℕ) :
    timed k (T + 1) = .call .tick :: .call (.runToCompletion k) :: timed k T := by
  rw [timed, List.replicate_succ, List.flatten_cons]
  rfl

/-- A clock that turns over every `P` ticks: a tick within a turn. -/
theorem clock_tick {P t : ℕ} (h : t % P + 1 < P) :
    (t + 1) / P = t / P ∧ (t + 1) % P = t % P + 1 := by
  have hP : 0 < P := by omega
  refine (Nat.div_mod_unique hP).mpr ⟨?_, h⟩
  rw [Nat.add_right_comm, Nat.mod_add_div]

/-- The tick at the end of a turn. -/
theorem clock_turn {P t : ℕ} (h : t % P + 1 = P) : (t + 1) / P = t / P + 1 ∧ (t + 1) % P = 0 := by
  have hP : 0 < P := by omega
  refine (Nat.div_mod_unique hP).mpr ⟨?_, hP⟩
  have hsplit := Nat.mod_add_div t P
  rw [Nat.mul_add, Nat.mul_one]
  omega

/-- Without Byzantine nodes a message is lost, at an isolated node, or arrives as it is. -/
theorem NetworkFaults.carried_cases [Sha256] {faults : NetworkFaults} {msg : NetworkMessage}
    (h : faults.isByzantine msg.sender = false) :
    (msg.sender ∈ faults.isolatedNodes ∨ msg.target ∈ faults.isolatedNodes) ∧
        faults.carried msg = [] ∨
      msg.sender ∉ faults.isolatedNodes ∧ msg.target ∉ faults.isolatedNodes ∧
        faults.carried msg = [msg] := by
  rw [carried_of_honest h]
  by_cases hs : msg.sender ∈ faults.isolatedNodes
  · exact .inl ⟨.inl hs, by simp [isIsolated, hs]⟩
  · by_cases ht : msg.target ∈ faults.isolatedNodes
    · exact .inl ⟨.inr ht, by simp [isIsolated, ht]⟩
    · exact .inr ⟨hs, ht, by simp [isIsolated, hs, ht]⟩

namespace Cluster

variable {σ : Type} [Sha256] {inner : NodeId → ConsensusNode σ} {code : NodeId → PolledNode σ}

theorem drive_of_cons {c c₁ : Cluster σ} {call : HarnessCall} (h : c.harness code call = some c₁)
    (calls : List HarnessCall) : c.drive code (call :: calls) = c₁.drive code calls := by
  rw [drive, List.foldlM_cons, h]
  rfl

/-- **A run to completion** delivers the first pending message, again and again. -/
theorem runToCompletion_of_front {I : (NodeId → σ) → List NetworkMessage → Prop} {n : ℕ}
    {faults : NetworkFaults} (hfaults : faults.Lossless)
    (hI : ∀ nodes m q, I nodes (m :: q) → ∃ nodes' out,
      receive inner n faults nodes m = some (nodes', out) ∧ I nodes' (q ++ out)) (k : ℕ) :
    ∀ {c : Cluster σ}, c.size = n → c.faults = faults → I c.nodes c.pending → ∃ steps c',
      runToCompletion inner c k = some (steps, c') ∧ Alike c c' ∧ I c'.nodes c'.pending := by
  induction k with
  | zero => exact fun {c} _ _ h => ⟨0, c, rfl, ⟨rfl, rfl⟩, h⟩
  | succ k ih =>
    intro c hsize hf h
    rw [runToCompletion]
    split
    · exact ⟨0, c, rfl, ⟨rfl, rfl⟩, h⟩
    · obtain ⟨c₁, hc₁, halike, h₁⟩ := step_of_front inner (I := fun nodes q _ => I nodes q)
        (hf ▸ hfaults) (fun nodes m q _ hm => by rw [hsize, hf]; exact hI nodes m q hm) h
      obtain ⟨steps, c', hrun, halike', h'⟩ :=
        ih (halike.size.trans hsize) (halike.faults.trans hf) h₁
      exact ⟨steps + 1, c', by rw [hc₁, Option.bind_some, hrun, Option.map_some],
        halike.trans halike', h'⟩

variable (inner) in
/-- **A run to completion completes**, if what follows on a message lives shorter than it. -/
theorem runToCompletion_of_fading {I : (NodeId → σ) → List NetworkMessage → Prop} {n : ℕ}
    {faults : NetworkFaults} (life : NetworkMessage → ℕ) (hfaults : faults.Lossless)
    (hI : ∀ nodes m q, I nodes (m :: q) → ∃ nodes' out,
      receive inner n faults nodes m = some (nodes', out) ∧ I nodes' (q ++ out) ∧
        ∀ m' ∈ out, life m' < life m) (k : ℕ) :
    ∀ {c : Cluster σ}, c.size = n → c.faults = faults → I c.nodes c.pending →
      (∀ m ∈ c.pending, life m < k) → ∃ steps c', runToCompletion inner c k = some (steps, c') ∧
        Alike c c' ∧ c'.pending = [] ∧ I c'.nodes [] := by
  induction k with
  | zero =>
    intro c _ _ h hlife
    have hnil := List.eq_nil_iff_forall_not_mem.mpr fun m hm =>
      absurd (hlife m hm) (Nat.not_lt_zero _)
    exact ⟨0, c, rfl, ⟨rfl, rfl⟩, hnil, hnil ▸ h⟩
  | succ k ih =>
    intro c hsize hf h hlife
    rw [runToCompletion]
    split
    · rename_i hempty
      have hnil := List.isEmpty_iff.mp hempty
      exact ⟨0, c, rfl, ⟨rfl, rfl⟩, hnil, hnil ▸ h⟩
    · -- what is sent in a step lives shorter than what was pending before
      obtain ⟨c₁, hc₁, halike, h₁, _, hlife₁⟩ := step_of_batch inner
        (I := fun nodes q sent => I nodes (q ++ sent) ∧ (∀ m ∈ q, life m < k + 1) ∧
          ∀ m ∈ sent, life m < k) (hf ▸ hfaults) (fun nodes m q sent hm => by
          obtain ⟨hm, hq, hsent⟩ := hm
          obtain ⟨nodes', out, hr, hnext, hout⟩ := hI nodes m (q ++ sent) hm
          rw [hsize, hf]
          refine ⟨nodes', out, hr, by rw [← List.append_assoc]; exact hnext,
            fun x hx => hq x (List.mem_cons_of_mem _ hx), fun x hx => ?_⟩
          rcases List.mem_append.mp hx with hx | hx
          · exact hsent x hx
          · exact lt_of_lt_of_le (hout x hx) (Nat.lt_succ_iff.mp (hq m List.mem_cons_self)))
        ⟨by rw [List.append_nil]; exact h, hlife, by simp⟩
      obtain ⟨steps, c', hrun, halike', hempty, h'⟩ :=
        ih (halike.size.trans hsize) (halike.faults.trans hf) h₁ hlife₁
      exact ⟨steps + 1, c', by rw [hc₁, Option.bind_some, hrun, Option.map_some],
        halike.trans halike', hempty, h'⟩

omit [Sha256] in
/-- What nodes send when they tick, if those outside `I` send nothing. -/
theorem sender_of_silent (hsigned : ∀ i, Signs (inner i) i) {n : ℕ} {I : Finset NodeId}
    {nodes : NodeId → σ} (h : ∀ i < n, i ∉ I → ((inner i).tick (nodes i)).2 = []) :
    ∀ m ∈ (List.range n).flatMap fun i => ((inner i).tick (nodes i)).2, m.sender ∈ I := by
  intro m hm
  obtain ⟨i, hi, hmi⟩ := List.mem_flatMap.mp hm
  by_contra hsender
  have hs : m.sender = i := (hsigned i).tick _ m hmi
  rw [h i (List.mem_range.mp hi) (hs ▸ hsender)] at hmi
  exact absurd hmi List.not_mem_nil

/-- In rounds the nodes are as `At` says of the time, and while messages are delivered they and what
    is left to deliver are as `Turn` says. -/
structure Turning (inner : NodeId → ConsensusNode σ) (n : ℕ) (faults : NetworkFaults)
    (At : ℕ → (NodeId → σ) → Prop) (Turn : ℕ → (NodeId → σ) → List NetworkMessage → Prop) :
    Prop where
  tick : ∀ t nodes, At t nodes →
    Turn t (fun i => if i < n then ((inner i).tick (nodes i)).1 else nodes i)
      ((List.range n).flatMap fun i => ((inner i).tick (nodes i)).2)
  receive : ∀ t nodes m q, Turn t nodes (m :: q) → ∃ nodes' out,
    receive inner n faults nodes m = some (nodes', out) ∧ Turn t nodes' (q ++ out)
  settle : ∀ t nodes, Turn t nodes [] → At (t + 1) nodes

variable {n : ℕ} {faults : NetworkFaults} {At : ℕ → (NodeId → σ) → Prop}
variable {Turn : ℕ → (NodeId → σ) → List NetworkMessage → Prop}

variable (code) in
/-- **Any number of rounds**, if a run to completion of `k` steps completes. -/
theorem Turning.rounds (h : Turning (consensus code) n faults At Turn) (hfaults : faults.Lossless)
    {k : ℕ} (hdrains : ∀ c : Cluster σ, c.size = n → ∃ steps c',
      runToCompletion (consensus code) c k = some (steps, c') ∧ c'.pending = []) (T : ℕ) :
    ∀ {t : ℕ} {c : Cluster σ}, c.size = n → c.faults = faults → c.pending = [] → At t c.nodes →
      ∃ c', c.drive code (timed k T) = some c' ∧ Alike c c' ∧ c'.pending = [] ∧
        At (t + T) c'.nodes := by
  induction T with
  | zero => exact fun {t c} _ _ hpending hat => ⟨c, rfl, ⟨rfl, rfl⟩, hpending, hat⟩
  | succ T ih =>
    intro t c hsize hf hpending hat
    obtain ⟨halike, hnodes, hsent⟩ := tick_eq (consensus code) c
    have hturn : Turn t (c.tick (consensus code)).nodes (c.tick (consensus code)).pending := by
      rw [hsent, hpending, List.nil_append, funext hnodes, hsize]
      exact h.tick t c.nodes hat
    obtain ⟨steps, c₁, hrun, halike₁, h₁⟩ := runToCompletion_of_front (I := Turn t) hfaults
      (h.receive t) k (halike.size.trans hsize) (halike.faults.trans hf) hturn
    obtain ⟨steps', c', hrun', hempty⟩ :=
      hdrains (c.tick (consensus code)) (halike.size.trans hsize)
    rw [hrun] at hrun'
    cases hrun'
    rw [hempty] at h₁
    obtain ⟨c₂, hdrive, halike₂, hpending₂, hat₂⟩ := ih (t := t + 1)
      ((halike.trans halike₁).size.trans hsize) ((halike.trans halike₁).faults.trans hf) hempty
      (h.settle t _ h₁)
    have htick : c.harness code (.call .tick) = some (c.tick (consensus code)) := rfl
    have hcomplete : (c.tick (consensus code)).harness code (.call (.runToCompletion k)) =
        some c₁ := by
      show (runToCompletion (consensus code) (c.tick (consensus code)) k).map Prod.snd = some c₁
      rw [hrun, Option.map_some]
    refine ⟨c₂, ?_, (halike.trans halike₁).trans halike₂, hpending₂, ?_⟩
    · rw [timed_succ, drive_of_cons htick, drive_of_cons hcomplete, hdrive]
    · rw [Nat.add_comm T 1, ← Nat.add_assoc]
      exact hat₂

end Cluster

end ConsensusBench
