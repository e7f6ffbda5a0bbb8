import Tornet.MissRanges
import Tornet.Udt.Channel

/-! The miss lists of a channel: the size that starts a retransmission, and the loop that empties the list. -/
namespace Tornet.Udt
open MissList

def Channel.Resends (c : Channel) : Prop := c.startedRetran = true ∨ c.retransmitting = true

instance (c : Channel) : Decidable c.Resends := inferInstanceAs (Decidable (_ ∨ _))

theorem handleAck_resends_iff (ap : AckPacket) (c : Channel) :
    (c.handleAck ap).ch.Resends ↔ ap.missedSeq.size ≠ 0 ∨ c.Resends := by
  have hrunning : (c.handleAck ap).ch.retransmitting = c.retransmitting := by
    simp only [Channel.handleAck, Channel.advanceTx, Channel.retransmit]
    split_ifs <;> rfl
  have hstarted : (c.handleAck ap).ch.startedRetran =
      (c.startedRetran || (decide (ap.missedSeq.size ≠ 0) && !c.retransmitting)) := by
    simp only [Channel.handleAck, Channel.advanceTx, Channel.retransmit]
    cases c.retransmitting <;> cases c.startedRetran <;> split_ifs <;> simp_all
  rw [Channel.Resends, Channel.Resends, hstarted, hrunning]
  cases c.retransmitting <;> simp [or_comm]

/-- On a list in order, `size` is the number of the numbers in it, zero only for the empty list, and an ack that reports a
number starts a retransmission, if and only if no range has more than one number. -/
theorem size_exact_iff {lo : SeqNum} {l : MissList} (hl : Ordered lo l) :
    (l.size.toNat = {x | l.contains x = true}.ncard ∧ (l.size = 0 → l = []) ∧
      ∀ (c : Channel) (ap : AckPacket), ap.missedSeq = l → (∃ x, l.contains x = true) → (c.handleAck ap).ch.Resends) ↔
    ∀ r ∈ l, r.1 = r.2 := by
  rw [← size_eq_ncard_iff hl]
  constructor
  · exact And.left
  · intro hsize
    have hzero : l.size = 0 → l = [] := by
      intro h0
      by_contra hne
      rw [h0] at hsize
      exact ncard_contains_ne_zero hl hne hsize.symm
    refine ⟨hsize, hzero, ?_⟩
    rintro c ap rfl ⟨x, hx⟩
    rw [handleAck_resends_iff]
    refine .inl fun h0 => ?_
    rw [hzero h0] at hx
    cases hx

/-- Two numbers with a gap between them. -/
theorem size_exact_single :
    (MissList.size [(3, 3), (7, 7)]).toNat = {x | MissList.contains [(3, 3), (7, 7)] x = true}.ncard :=
  ((@size_exact_iff 0 [(3, 3), (7, 7)] (by decide)).mpr (by simp)).1

/-- Two packets in a row are missing: the size is zero and nothing is sent again. -/
theorem size_of_pair : Ordered 0 [(1, 2)] ∧ MissList.contains [(1, 2)] 1 = true ∧ MissList.contains [(1, 2)] 2 = true ∧
    MissList.size [(1, 2)] = 0 ∧ ¬ ((Channel.init 8).handleAck { missedSeq := [(1, 2)] }).ch.Resends := by
  decide

/-! ### The loop of `retransmit` -/

/-- The channel after some turns of the loop with nothing else in between. -/
def retransmitTurns (n : Nat) (c : Channel) : Channel := (fun c => c.retransmitStep.ch)^[n] c

/-- A turn ends the task, or pops one number. -/
theorem retransmitStep_task (c : Channel) : c.retransmitStep.ch.retranTask = false ∨
    ∃ sq, c.txMissList.popFront = some (sq, c.retransmitStep.ch.txMissList) := by
  rw [Channel.retransmitStep]
  simp only
  split
  · exact .inl rfl
  · rename_i sq rest hpop
    split
    · exact .inl rfl
    · split_ifs
      · exact .inr ⟨sq, hpop⟩
      · exact .inl rfl
      · exact .inr ⟨sq, hpop⟩

/-- One more turn than there are numbers to pop is enough. -/
theorem retransmit_ends (n : Nat) (c : Channel) (hn : (c.txMissList.flatMap numbers).length ≤ n) :
    ∃ m ≤ n, (retransmitTurns (m + 1) c).retranTask = false := by
  induction n generalizing c with
  | zero =>
    refine ⟨0, Nat.le_refl 0, ?_⟩
    rcases retransmitStep_task c with h | ⟨sq, hpop⟩
    · exact h
    · rw [flatMap_popFront hpop] at hn
      cases hn
  | succ n ih =>
    rcases retransmitStep_task c with h | ⟨sq, hpop⟩
    · exact ⟨0, Nat.zero_le _, h⟩
    · rw [flatMap_popFront hpop, List.length_cons] at hn
      obtain ⟨m, hm, hend⟩ := ih c.retransmitStep.ch (Nat.le_of_succ_le_succ hn)
      exact ⟨m + 1, Nat.succ_le_succ hm, hend⟩

/-- On a list in order `remove` takes out exactly its number and keeps the order, and calls of `pop_front` return exactly
the numbers in the list, each ahead of the ones before it, and then `false`. Whatever the ranges are, the loop of
`retransmit` ends. -/
theorem remove_pop_exact :
    (∀ (lo : SeqNum) (l : MissList), Ordered lo l →
      (∀ x, (∀ y, (l.remove x).contains y = true ↔ l.contains y = true ∧ y ≠ x) ∧ Ordered lo (l.remove x)) ∧
      ∃ xs, l.pops xs.length = (xs, []) ∧ (∀ x, x ∈ xs ↔ l.contains x = true) ∧
        xs.Pairwise fun x y => offset lo x < offset lo y) ∧
    ∀ c : Channel, ∃ n, (retransmitTurns (n + 1) c).retranTask = false := by
  refine ⟨fun lo l hl => ⟨remove_exact hl, l.flatMap numbers, pops_flatMap l, ?_, flatMap_numbers_ascending hl⟩, ?_⟩
  · exact fun x => (contains_iff_mem_numbers hl).symm
  · intro c
    obtain ⟨n, -, hend⟩ := retransmit_ends _ c (Nat.le_refl _)
    exact ⟨n, hend⟩

/-- A list around the end of the number space. -/
theorem remove_pop_wrapped : Ordered 65534 [(65535, 1), (3, 3)] ∧
    Ordered 65534 (MissList.remove 0 [(65535, 1), (3, 3)]) ∧
    ∃ xs, MissList.pops xs.length [(65535, 1), (3, 3)] = (xs, []) ∧ xs.Pairwise fun x y => offset 65534 x < offset 65534 y := by
  have hl : Ordered 65534 [(65535, 1), (3, 3)] := by decide
  obtain ⟨hremove, xs, hpops, -, hasc⟩ := remove_pop_exact.1 65534 [(65535, 1), (3, 3)] hl
  exact ⟨hl, (hremove 0).2, xs, hpops, hasc⟩

end Tornet.Udt
