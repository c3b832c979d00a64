import SthCore.Lib.Inverse
import SthCore.Storage.Effects
import SthCore.Storage.Reverted

/-!
Usernames and their index.  Registrations write the index and rollbacks erase
from it; this file says what one write of a wallet, and one restored wallet, make
of an exact index.
-/

namespace SthCore

open SthCore.Lib

namespace Op

/-- The name that a change registers. -/
def name : Op → Option Text
  | username u => some u
  | _ => none

/-- Whether a change registers a name or a second key. -/
def registers : Op → Bool
  | username _ | secondKey _ | pqKey _ => true
  | _ => false

theorem name_eq_none {op : Op} (h : op.registers = false) : op.name = none := by
  cases op <;> first | rfl | cases h

theorem apply_username (op : Op) (d : WalletDelta) :
    (op.apply d).username = op.name.or d.username := by
  cases op <;> rfl

end Op

/-- The name that a transaction registers. -/
def Transaction.registered (tx : Transaction) : Option Text :=
  if tx.coreType = some .delegateRegistration then
    (tx.asset.bind (·.delegate)).map (·.username)
  else none

/-- The registrations of a list of blocks: sender and name. -/
def registrations (E : Env) (blocks : List Block) : List (Text × Text) :=
  blocks.flatMap fun b => b.transactions.filterMap fun tx => do
    let u ← tx.registered
    let address ← (E.addressOf tx.senderPublicKey).toOption
    return (address, u)

theorem mem_registrations {E : Env} {blocks : List Block} {b : Block} {tx : Transaction}
    {address u : Text} (hb : b ∈ blocks) (htx : tx ∈ b.transactions)
    (haddress : E.addressOf tx.senderPublicKey = .ok address) (hu : tx.registered = some u) :
    (address, u) ∈ registrations E blocks := by
  refine List.mem_flatMap.mpr ⟨b, hb, List.mem_filterMap.mpr ⟨tx, htx, ?_⟩⟩
  simp [hu, haddress, Except.toOption]

namespace Ops

/-- A list of changes registers no name. -/
def Unnamed (ops : Ops) : Prop := ∀ o ∈ ops, o.2.name = none

/-- A list of changes registers neither a name nor a second key. -/
def Plain (ops : Ops) : Prop := ∀ o ∈ ops, o.2.registers = false

theorem Plain.unnamed {ops : Ops} (h : Plain ops) : Unnamed ops :=
  fun o ho => Op.name_eq_none (h o ho)

theorem Plain.nil : Plain [] := by simp [Plain]

theorem Plain.cons {o : Text × Op} {ops : Ops} (ho : o.2.registers = false) (h : Plain ops) :
    Plain (o :: ops) := by
  intro o' ho'
  rcases List.mem_cons.mp ho' with rfl | ho'
  · exact ho
  · exact h o' ho'

theorem Plain.append {l l' : Ops} (h : Plain l) (h' : Plain l') : Plain (l ++ l') := by
  intro o ho
  exact (List.mem_append.mp ho).elim (h o) (h' o)

theorem Plain.flatMap {α : Type} {l : List α} {f : α → Ops} (h : ∀ a, Plain (f a)) :
    Plain (l.flatMap f) := by
  intro o ho
  obtain ⟨a, -, ha⟩ := List.mem_flatMap.mp ho
  exact h a o ha

end Ops

namespace Accumulate

open Ops

variable {E : Env} {s : Store} {batch : List Block} {block : Block} {index : Nat}
  {tx : Transaction} {sender : Text} {ds : Deltas} {ops : Ops}

theorem moveObject_plain (reg : Text) (rec : SmartObject) (token : Option TokenState)
    (previous next : Text) : Plain (moveObject reg rec token previous next) := by
  unfold moveObject
  cases token with
  | none => exact (Plain.nil.cons rfl |>.cons rfl |>.cons rfl).append .nil
  | some st => exact (Plain.nil.cons rfl |>.cons rfl |>.cons rfl).append (Plain.nil.cons rfl)

theorem sobj_plain (e : SmartObjectAsset) : Plain (sobj E s tx sender e ds) := by
  have hhand : Plain (handOver E s sender e ds) := by
    unfold handOver
    split
    · exact .nil
    · split
      · exact .nil
      · split
        · exact .nil
        · refine Plain.append ?_ (moveObject_plain _ _ _ _ _)
          split_ifs
          · exact Plain.nil.cons rfl |>.cons rfl
          · exact .nil
  have hedit : Plain (edit s sender e ds) := by
    unfold edit
    split
    · exact .nil
    · split
      · exact .nil
      · exact Plain.nil.cons rfl
  unfold sobj
  split
  · exact .nil
  · split
    · exact hhand
    · exact hhand
    · exact Plain.nil.cons rfl
    · exact hedit

theorem token_plain {type : TokenType} {a : TokenAsset}
    (h : token E s block index tx sender type a ds = .ok ops) : Plain ops := by
  unfold token at h
  cases type with
  | init =>
      obtain ⟨x, -, h⟩ := bind_eq_ok.mp h
      rw [← pure_eq_ok.mp h]
      exact Plain.nil.cons rfl |>.cons rfl
  | transfer =>
      rw [← pure_eq_ok.mp h]
      exact Plain.flatMap fun it => Plain.nil.cons rfl |>.cons rfl
  | mint =>
      rw [← pure_eq_ok.mp h]
      exact Plain.nil.cons rfl |>.cons rfl
  | tokenMeta =>
      simp only at h
      split at h
      · rw [← pure_eq_ok.mp h]
        exact Plain.nil.cons rfl
      · rw [← pure_eq_ok.mp h]
        exact .nil
  | sell =>
      rw [← pure_eq_ok.mp h]
      exact Plain.nil.cons rfl |>.cons rfl
  | buy =>
      obtain ⟨o, -, h⟩ := bind_eq_ok.mp h
      rw [← pure_eq_ok.mp h]
      exact Plain.nil.cons rfl |>.cons rfl |>.cons rfl |>.cons rfl |>.cons rfl
  | cancel =>
      obtain ⟨o, -, h⟩ := bind_eq_ok.mp h
      rw [← pure_eq_ok.mp h]
      exact Plain.nil.cons rfl |>.cons rfl
  | burn =>
      rw [← pure_eq_ok.mp h]
      exact Plain.nil.cons rfl |>.cons rfl

theorem htlcClaim_plain {id : Text} (h : htlcClaim E s batch id = .ok ops) : Plain ops := by
  obtain ⟨lock, -, h⟩ := bind_eq_ok.mp h
  cases lock with
  | none =>
      rw [← pure_eq_ok.mp h]
      exact .nil
  | some lock =>
      obtain ⟨owner, -, h⟩ := bind_eq_ok.mp h
      rw [← pure_eq_ok.mp h]
      refine Plain.append ?_ (Plain.nil.cons rfl)
      split
      · exact Plain.nil.cons rfl
      · exact .nil

theorem htlcRefund_plain {id : Text} (h : htlcRefund E s batch id = .ok ops) :
    Plain ops := by
  obtain ⟨lock, -, h⟩ := bind_eq_ok.mp h
  cases lock with
  | none =>
      rw [← pure_eq_ok.mp h]
      exact .nil
  | some lock =>
      obtain ⟨owner, -, h⟩ := bind_eq_ok.mp h
      rw [← pure_eq_ok.mp h]
      exact Plain.nil.cons rfl |>.cons rfl

theorem transfer_plain : Plain (transfer block tx sender) := by
  unfold transfer
  split
  · exact .nil
  · refine Plain.cons rfl ?_
    split
    · exact Plain.nil.cons rfl
    · exact .nil

theorem vote_plain : Plain (vote tx sender) := by
  intro o ho
  obtain ⟨v, -, rfl⟩ := List.mem_map.mp ho
  rfl

theorem secondSignature_unnamed : Unnamed (secondSignature block tx sender) := by
  unfold secondSignature
  intro o ho
  split at ho
  · cases ho
  · split_ifs at ho <;> rw [List.mem_singleton.mp ho] <;> rfl

/-- What a transaction registers: nothing, a name, or a second key. -/
inductive Registers (block : Block) (tx : Transaction) (sender : Text) (ops : Ops) : Prop
  | plain (h : Plain ops)
  | name (htype : tx.coreType = some .delegateRegistration) (del : DelegateAsset)
      (hdel : (tx.asset.bind (·.delegate)) = some del)
      (hops : ops = [(sender, .username del.username)])
  | key (htype : tx.coreType = some .secondSignature)
      (hops : ops = secondSignature block tx sender)

theorem core_registers {type : CoreType} (htype : tx.coreType = some type)
    (h : core E s batch block tx sender type = .ok ops) : Registers block tx sender ops := by
  unfold core at h
  cases type with
  | transfer =>
      rw [← pure_eq_ok.mp h]
      exact .plain transfer_plain
  | multiPayment =>
      rw [← pure_eq_ok.mp h]
      exact .plain (Plain.flatMap fun p => Plain.nil.cons rfl |>.cons rfl)
  | vote =>
      rw [← pure_eq_ok.mp h]
      exact .plain vote_plain
  | delegateRegistration =>
      simp only at h
      split at h
      · rename_i del hdel
        exact .name htype del hdel (pure_eq_ok.mp h).symm
      · rw [← pure_eq_ok.mp h]
        exact .plain .nil
  | secondSignature => exact .key htype (pure_eq_ok.mp h).symm
  | delegateResignation =>
      rw [← pure_eq_ok.mp h]
      exact .plain (Plain.nil.cons rfl)
  | multiSignature =>
      simp only at h
      split at h
      · obtain ⟨address, -, h⟩ := bind_eq_ok.mp h
        rw [← pure_eq_ok.mp h]
        exact .plain (Plain.nil.cons rfl)
      · rw [← pure_eq_ok.mp h]
        exact .plain .nil
  | htlcLock =>
      simp only at h
      split at h
      · rw [← pure_eq_ok.mp h]
        exact .plain (Plain.nil.cons rfl)
      · rw [← pure_eq_ok.mp h]
        exact .plain .nil
  | htlcClaim =>
      simp only at h
      split at h
      · exact .plain (htlcClaim_plain h)
      · rw [← pure_eq_ok.mp h]
        exact .plain .nil
  | htlcRefund =>
      simp only at h
      split at h
      · exact .plain (htlcRefund_plain h)
      · rw [← pure_eq_ok.mp h]
        exact .plain .nil
  | ipfs =>
      rw [← pure_eq_ok.mp h]
      exact .plain .nil

theorem effect_registers (h : effect E s batch block index tx sender ds = .ok ops) :
    Registers block tx sender ops := by
  unfold effect at h
  split at h
  · rw [← Except.ok.inj h]
    exact .plain (sobj_plain _)
  · split at h
    · exact .plain (token_plain h)
    · split at h
      · rename_i type htype
        exact core_registers htype h
      · rw [← Except.ok.inj h]
        exact .plain .nil

/-- A transaction names its sender, if it is a registration, and nobody else. -/
theorem effect_named (h : effect E s batch block index tx sender ds = .ok ops) :
    ∀ o ∈ ops, ∀ u, o.2.name = some u → o.1 = sender ∧ tx.registered = some u := by
  intro o ho u hu
  cases effect_registers h with
  | plain hplain =>
      rw [hplain.unnamed o ho] at hu
      cases hu
  | name htype del hdel hops =>
      subst hops
      obtain rfl := List.mem_singleton.mp ho
      refine ⟨rfl, ?_⟩
      unfold Transaction.registered
      rw [if_pos htype, hdel]
      exact hu
  | key htype hops =>
      subst hops
      rw [secondSignature_unnamed o ho] at hu
      cases hu

/-- A delta names a wallet only if the wallet registers under that name. -/
theorem run_username {P : Text → Text → Prop} {ds : Deltas} {ops : Ops}
    (hds : ∀ a u, (ds.get a).username = some u → P a u)
    (hops : ∀ o ∈ ops, ∀ u, o.2.name = some u → P o.1 u) :
    ∀ a u, ((ds.run ops).get a).username = some u → P a u := by
  induction ops generalizing ds with
  | nil => exact hds
  | cons o rest ih =>
      rw [Deltas.run_cons]
      refine ih ?_ fun o' ho' => hops o' (List.mem_cons_of_mem o ho')
      intro a u hu
      rw [Deltas.get_upd] at hu
      split_ifs at hu with ha
      · subst ha
        rw [Op.apply_username] at hu
        cases hname : o.2.name with
        | none =>
            rw [hname, Option.none_or] at hu
            exact hds o.1 u hu
        | some v =>
            rw [hname, Option.some_or] at hu
            exact hops o List.mem_cons_self u (hname.trans hu)
      · exact hds a u hu

theorem batchDeltas_username (h : batchDeltas E s batch = .ok ds) (a u : Text)
    (hu : (ds.get a).username = some u) : (a, u) ∈ registrations E batch := by
  have hall := batchDeltas_induction
    (R := fun _ _ ds => ∀ a u, (ds.get a).username = some u → (a, u) ∈ registrations E batch)
    (by simp) ?_ ?_ h
  · exact hall a u hu
  · intro forged done ds block ops hblock hops hR
    obtain ⟨generator, -, rfl⟩ := forger_eq_ok hops
    refine run_username hR ?_
    intro o ho u hu
    split_ifs at ho <;> simp at ho <;> rcases ho with rfl | rfl <;> cases hu
  · intro forged done ds block tx index address ops hblock htx haddress hops hR
    refine run_username hR ?_
    intro o ho u hu
    rcases List.mem_cons.mp ho with rfl | ho
    · cases hu
    · obtain ⟨rfl, hregistered⟩ := effect_named hops o ho u hu
      exact mem_registrations hblock htx haddress hregistered

end Accumulate

namespace Store

/-- The username of an address. -/
def nameAt (s : Store) (address : Text) : Option Text :=
  (s.getWallet address).bind (·.username)

/-- The username index lists exactly the usernames of the wallets. -/
def NamesExact (s : Store) : Prop := Inverse s.walletUsername s.nameAt

theorem NamesExact.congr {s s' : Store} (hwallets : s'.wallets = s.wallets)
    (hnames : s'.walletUsername = s.walletUsername) (h : s.NamesExact) : s'.NamesExact := by
  unfold NamesExact nameAt getWallet at h ⊢
  rw [hwallets, hnames]
  exact h

/-- The ranking is a sorted list of the wallets that have a username. -/
theorem NamesExact.ranking {s : Store} (h : s.NamesExact) :
    (s.delegateRanking.map (·.1)).Perm
      ((s.wallets.toList.map (·.2)).filter (·.isDelegate)) := by
  have hlisted : s.delegates.map (·.1) =
      (s.walletUsername.toList.map (·.2)).filterMap s.getWallet := by
    unfold delegates
    rw [List.map_filterMap, List.filterMap_map]
    apply List.filterMap_congr
    intro e _
    cases hw : s.getWallet e.2 with
    | none => simp [hw]
    | some w => simp [hw]
  have hwallets : ((s.wallets.toList.filter fun e => e.2.username.isSome).map (·.1)).filterMap
      s.getWallet = (s.wallets.toList.map (·.2)).filter (·.isDelegate) := by
    rw [List.filterMap_map, List.filter_map]
    rw [← List.filterMap_eq_map]
    apply List.filterMap_congr
    intro e he
    have hmem := (List.mem_filter.mp he).1
    exact Std.ExtTreeMap.mem_toList_iff_getElem?_eq_some.mp hmem
  have hnames : ∀ address, s.nameAt address = s.wallets[address]?.bind WalletState.username :=
    fun _ => rfl
  have hperm := (h.keys_perm hnames).filterMap s.getWallet
  rw [← hlisted, hwallets] at hperm
  have hsorted := List.perm_insertionSort (fun a b => rankBefore a b = true) s.delegates
  exact (hsorted.map (·.1)).trans hperm

/-- A wallet is written under no name, its own name, or a name that nobody has. -/
theorem writeWallet_namesExact {s s' : Store} {address : Text} {d : WalletDelta}
    (h : s.writeWallet address d = .ok s') (hexact : s.NamesExact)
    (hname : ∀ u, d.username = some u →
      (s.nameAt address = none ∨ s.nameAt address = some u) ∧
      ∀ b, s.nameAt b = some u → b = address) :
    s'.NamesExact ∧
    ∀ b, s'.nameAt b = if b = address then d.username.or (s.nameAt address) else s.nameAt b := by
  obtain ⟨w, hw, hs'⟩ := writeWallet_eq_ok h
  have husername : w.username = d.username.or (s.nameAt address) := by
    obtain ⟨-, -, issued, tokens, -, -, rfl⟩ := WalletState.apply_eq_ok hw
    unfold walletAt nameAt
    cases s.getWallet address <;> rfl
  have hnameAt : ∀ b, s'.nameAt b =
      if b = address then d.username.or (s.nameAt address) else s.nameAt b := by
    intro b
    rw [hs', ← husername]
    unfold nameAt getWallet
    simp only [writeIndexes, putWallet, OrderedMap.getElem?_insert_eq, adjustVotes_wallets]
    by_cases hb : b = address
    · simp [hb]
    · simp [hb, Ne.symm hb]
  refine ⟨?_, hnameAt⟩
  unfold NamesExact
  cases hdone : w.username with
  | none =>
      have hindex : s'.walletUsername = s.walletUsername := by
        rw [hs', adjustVotes_eq]
        simp only [writeIndexes, putWallet, hdone]
      rw [hindex]
      refine Inverse.congr hexact fun b => ?_
      rw [hnameAt, ← husername, hdone]
      split_ifs with hb
      · rw [husername] at hdone
        rw [hb]
        exact (Option.or_eq_none_iff.mp hdone).2.symm
      · rfl
  | some u =>
      have hindex : s'.walletUsername = s.walletUsername.insert u address := by
        rw [hs', adjustVotes_eq]
        simp only [writeIndexes, putWallet, hdone]
      rw [hindex]
      have hkeep : (s.nameAt address = none ∨ s.nameAt address = some u) ∧
          ∀ b, s.nameAt b = some u → b = address := by
        rw [husername] at hdone
        cases hd : d.username with
        | some v =>
            rw [hd, Option.some_or] at hdone
            exact hname u (hd.trans hdone)
        | none =>
            rw [hd, Option.none_or] at hdone
            exact ⟨.inr hdone, fun b hb => Inverse.injective hexact hb hdone⟩
      refine Inverse.insert hexact hkeep.1 hkeep.2 fun b => ?_
      rw [hnameAt, ← husername, hdone]

/-- Wallets written one after another, each under a name that is free for it. -/
theorem writeEntries_namesExact {s s' : Store} {entries : List (Text × WalletDelta)}
    (h : s.writeEntries entries = .ok s') (hexact : s.NamesExact)
    (hnodup : (entries.map fun e => e.1).Nodup)
    (hname : ∀ e ∈ entries, ∀ u, e.2.username = some u →
      (s.nameAt e.1 = none ∨ s.nameAt e.1 = some u) ∧ ∀ b, s.nameAt b = some u → b = e.1)
    (hdistinct : ∀ e ∈ entries, ∀ e' ∈ entries, ∀ u, e.2.username = some u →
      e'.2.username = some u → e.1 = e'.1) : s'.NamesExact := by
  induction entries generalizing s with
  | nil =>
      obtain rfl : s = s' := foldlM_nil_ok.mp h
      exact hexact
  | cons e rest ih =>
      obtain ⟨s₁, hstep, hrest⟩ := foldlM_cons_ok.mp h
      obtain ⟨hexact₁, hnameAt⟩ :=
        writeWallet_namesExact hstep hexact (hname e List.mem_cons_self)
      rw [List.map_cons, List.nodup_cons] at hnodup
      refine ih hrest hexact₁ hnodup.2 ?_ ?_
      · intro e' he' u hu
        have hne : e'.1 ≠ e.1 := fun heq => hnodup.1 (heq ▸ List.mem_map_of_mem he')
        obtain ⟨hown, hfree⟩ := hname e' (List.mem_cons_of_mem e he') u hu
        refine ⟨by rwa [hnameAt, if_neg hne], ?_⟩
        intro b hb
        rw [hnameAt] at hb
        split_ifs at hb with hbe
        · -- the wallet just written cannot have the name of a later one
          exfalso
          cases hd : e.2.username with
          | some v =>
              rw [hd, Option.some_or] at hb
              exact hne (hdistinct e' (List.mem_cons_of_mem e he') e List.mem_cons_self u hu
                (hd.trans hb))
          | none =>
              rw [hd, Option.none_or] at hb
              exact hne (hfree e.1 hb).symm
        · exact hfree b hb
      · intro e₁ he₁ e₂ he₂
        exact hdistinct e₁ (List.mem_cons_of_mem e he₁) e₂ (List.mem_cons_of_mem e he₂)

/-- A restored wallet has the name it has now, or is gone. -/
theorem restoreWallet_namesExact {s : Store} {e : Text × Option WalletState}
    (hexact : s.NamesExact) (hname : ∀ w, e.2 = some w → w.username = s.nameAt e.1) :
    (restoreWallet s e).NamesExact ∧
    ∀ b, (restoreWallet s e).nameAt b =
      if b = e.1 then e.2.bind (·.username) else s.nameAt b := by
  rcases e with ⟨address, _ | w⟩
  · have hnameAt : ∀ b, (restoreWallet s (address, none)).nameAt b =
        if b = address then none else s.nameAt b := by
      intro b
      unfold nameAt getWallet restoreWallet
      simp only [OrderedMap.getElem?_erase_eq]
      by_cases hb : b = address
      · simp [hb]
      · simp [hb, Ne.symm hb]
    refine ⟨?_, hnameAt⟩
    have hgone := Inverse.erase hexact hnameAt
    change Inverse (restoreWallet s (address, none)).walletUsername _
    cases hold : s.nameAt address with
    | none =>
        rw [hold] at hgone
        have hindex : (restoreWallet s (address, none)).walletUsername = s.walletUsername := by
          unfold nameAt at hold
          simp only [restoreWallet, hold]
        rw [hindex]
        exact hgone
    | some u =>
        rw [hold] at hgone
        have hindex : (restoreWallet s (address, none)).walletUsername =
            s.walletUsername.erase u := by
          unfold nameAt at hold
          simp only [restoreWallet, hold]
        rw [hindex]
        exact hgone
  · have hnameAt : ∀ b, (restoreWallet s (address, some w)).nameAt b =
        if b = address then w.username else s.nameAt b := by
      intro b
      unfold nameAt getWallet restoreWallet
      simp only [OrderedMap.getElem?_insert_eq]
      by_cases hb : b = address
      · simp [hb]
      · simp [hb, Ne.symm hb]
    have hindex : (restoreWallet s (address, some w)).walletUsername = s.walletUsername := by
      change (s.adjustVotes (voteWeight (s.getWallet address))
        (voteWeight (some w))).walletUsername = s.walletUsername
      rw [adjustVotes_eq]
    refine ⟨?_, hnameAt⟩
    unfold NamesExact
    rw [hindex]
    refine Inverse.congr hexact fun b => ?_
    rw [hnameAt]
    split_ifs with hb
    · rw [hb]
      exact hname w rfl
    · rfl

theorem foldl_restoreWallet_namesExact {s : Store} {undo : UndoRecord} (hexact : s.NamesExact)
    (hnodup : (undo.map (·.1)).Nodup)
    (hname : ∀ e ∈ undo, ∀ w, e.2 = some w → w.username = s.nameAt e.1) :
    (undo.foldl restoreWallet s).NamesExact := by
  induction undo generalizing s with
  | nil => exact hexact
  | cons e rest ih =>
      obtain ⟨hexact₁, hnameAt⟩ := restoreWallet_namesExact hexact (hname e List.mem_cons_self)
      rw [List.map_cons, List.nodup_cons] at hnodup
      refine ih hexact₁ hnodup.2 ?_
      intro e' he' w hw
      have hne : e'.1 ≠ e.1 := fun heq => hnodup.1 (heq ▸ List.mem_map_of_mem he')
      rw [hnameAt, if_neg hne]
      exact hname e' (List.mem_cons_of_mem e he') w hw

end Store

end SthCore
