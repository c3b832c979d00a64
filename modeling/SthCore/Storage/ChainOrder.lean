import SthCore.Storage.Listing

/-!
The transaction index against the chain.  The entries under an address lead to
the transactions of the stored blocks that touch it, in the order of the blocks.
-/

namespace SthCore

open SthCore.Lib

namespace Store

variable {E : Env} {s s' : Store}

/-- Stored blocks are not longer than positions can count, and their transactions have
addresses. -/
structure Regular (E : Env) (s : Store) : Prop where
  few : ∀ e ∈ s.storedBlocks E, e.2.transactions.length < 2 ^ 32
  addressed : ∀ e ∈ s.storedBlocks E, ∀ tx ∈ e.2.transactions,
    ∃ addresses, txAddresses E tx = .ok addresses

end Store

end SthCore
