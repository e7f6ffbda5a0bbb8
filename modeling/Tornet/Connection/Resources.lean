import Tornet.Connection.Authentication
import Tornet.Connection.Host

/-! What the handlers of a connection use without a test: the key pair, its shared key and the cipher.
Each state has them, apart from one use: an auth message asks for the shared key in every state in
which messages are decrypted, also on a connection that was resumed and never exchanged keys. -/
namespace Tornet.Connection
open Library Runs Eff

/-- What each state has: a cipher from `received_dh` on, a key pair while keys are exchanged, and its
shared key in `received_dh`. -/
structure Ready (s : State) (dh : Option Dh) (bf : Option Bytes) : Prop where
  cipher : State.receivedDh.value ≤ s.value → bf ≠ none
  pair : s = .generatedDh → dh ≠ none
  shared : s = .receivedDh → HasShared dh

def Conn.Ready (c : Conn) : Prop := Connection.Ready c.curState c.dh c.bf

def Complete (c : Conn) : Prop := HasShared c.dh ∧ c.bf ≠ none

theorem HasShared.ne_none {o : Option Dh} (h : HasShared o) : o ≠ none := by
  obtain ⟨dh, rfl, -⟩ := h
  exact Option.some_ne_none dh

theorem Complete.ready {c : Conn} (h : Complete c) : c.Ready := ⟨fun _ => h.2, fun _ => h.1.ne_none, fun _ => h.1⟩

theorem Ready.failed {dh : Option Dh} {bf : Option Bytes} : Ready .failed dh bf :=
  ⟨fun hv => absurd hv (by decide), fun hs => absurd hs (by decide), fun hs => absurd hs (by decide)⟩

theorem Ready.uninit {dh : Option Dh} {bf : Option Bytes} : Ready .uninit dh bf :=
  ⟨fun hv => absurd hv (by decide), fun hs => absurd hs (by decide), fun hs => absurd hs (by decide)⟩

section
variable {K : Crypto} {S : Bytes → Prop}

/-! ### The exchange of keys -/

section
variable (hK : ∀ priv pub, pub.length ≤ 56 → (K.dhShared priv pub).length ≤ 56)
include hK

end

/-- Outside the states of the exchange, with the key pair of the beginning. -/
def Settled (S : Bytes → Prop) (dh₀ : Option Dh) (c : Conn) : Prop :=
  Keyed S c ∧ c.dh = dh₀ ∧ c.curState ≠ .generatedDh ∧ (c.curState = .receivedDh → HasShared dh₀)

/-- A connection that has exchanged no keys gets no auth message: no stage of the datagram under the keys
of the connection is one that can be read. -/
def AuthAfterDh (K : Crypto) (c : Conn) : Event → Prop
  | .packet b _ => ∀ payload, OpensAuth K c.Keys b payload → (K.readAuth payload).isSome → HasShared c.dh
  | .advance _ | .close _ => True

end

instance (o : Option Dh) : Decidable (HasShared o) :=
  inferInstanceAs (Decidable (∃ dh, dh ∈ o ∧ dh.sharedKey.length = 56))

def FramesAfterDh (c : Conn) : Event → Prop
  | .packet b _ => b.length % 8 ≠ 0 ∨ HasShared c.dh
  | .advance _ | .close _ => True

instance (c : Conn) : (e : Event) → Decidable (FramesAfterDh c e)
  | .packet b _ => inferInstanceAs (Decidable (b.length % 8 ≠ 0 ∨ HasShared c.dh))
  | .advance _ | .close _ => isTrue trivial

theorem FramesAfterDh.auth {K : Crypto} {c : Conn} {e : Event} (h : FramesAfterDh c e) : AuthAfterDh K c e := by
  cases e with
  | packet b env => exact fun payload hop _ => h.resolve_left fun hlen => hlen hop.frame
  | advance env => trivial
  | close env => trivial

end Tornet.Connection
