import Mathlib.Data.Finset.Card
import Mathlib.Data.Fintype.Card
import DistributedSystems.Library.Fallible
import DistributedSystems.MCertiKOS.Fs.Transactions

/-!
# Are there enough buffers for a transaction? (`kern/fs/bufcache.c`, `kern/fs/log.c`)

`log_write` pins the buffer of every logged sector until the commit, and needs a buffer for the
block of the log while the caller holds its own.  With `NBUF = LOGSIZE` the tenth sector of a
transaction finds nine buffers pinned and one held.

The programs of `Disk` and `Log` are written down once more with the reason for which they stop; a
program here and the one there do the same.
-/

namespace MCertiKOS.Fs.Supply

open Fallible

/-! ## 1. The programs -/

inductive Stop where
  | sleeps
  /-- `bufcache_get: no buffers` -/
  | noBuffers
  | ide
  | bwrite
  | brelse
  /-- `too big a transaction` -/
  | tooBig
  /-- `write outside of trans` -/
  | outsideTrans
  deriving DecidableEq

structure System where
  disk : Disk
  machine : Machine

abbrev SysM := EStateM Stop System

namespace System

def setBuf (s : System) (i : Fin nbuf) (b : Buf) : System :=
  { s with machine := s.machine.withCache (s.machine.bcache.set i b) }

def buf (s : System) (i : Fin nbuf) : Buf := s.machine.bcache.buf i

end System

def setBuf (i : Fin nbuf) (b : Buf) : SysM Unit := modify fun s => s.setBuf i b

def getBuf (i : Fin nbuf) : SysM Buf := do
  let s ← get
  return s.buf i

def ideRw (i : Fin nbuf) : SysM Unit := do
  let s ← get
  if !(s.buf i).busy then throw .ide
  else if (s.buf i).valid && !(s.buf i).dirty then throw .ide
  else if (s.buf i).dev ≠ 0 ∧ s.machine.haveDisk1 = false then throw .ide
  else if (s.buf i).dirty then
    set { s with disk := Function.update s.disk (s.buf i).place (s.buf i).data }
    setBuf i { s.buf i with valid := true, dirty := false }
  else setBuf i { s.buf i with data := s.disk (s.buf i).place, valid := true, dirty := false }

def bufcacheGet (dev sector : BitVec 32) : SysM (Fin nbuf) := do
  let s ← get
  match s.machine.bcache.order.find? fun i => (s.buf i).holds dev sector with
  | some i =>
    if (s.buf i).busy then throw .sleeps
    else
      setBuf i { s.buf i with busy := true }
      return i
  | none =>
    match s.machine.bcache.order.reverse.find? fun i => (s.buf i).idle with
    | some i =>
      setBuf i { s.buf i with dev, sector, busy := true, valid := false, dirty := false }
      return i
    | none => throw .noBuffers

def bufcacheRead (dev sector : BitVec 32) : SysM (Fin nbuf) := do
  let i ← bufcacheGet dev sector
  let b ← getBuf i
  if !b.valid then ideRw i
  return i

def bufcacheWrite (i : Fin nbuf) : SysM Unit := do
  let b ← getBuf i
  if !b.busy then throw .bwrite
  else
    setBuf i { b with dirty := true }
    ideRw i

def bufcacheRelease (i : Fin nbuf) : SysM Unit := do
  let b ← getBuf i
  if !b.busy then throw .brelse
  else
    modify fun s =>
      { s with
        machine := s.machine.withCache
          { s.machine.bcache with order := i :: s.machine.bcache.order.erase i } }
    setBuf i { b with busy := false }

def modifyData (i : Fin nbuf) (f : Block → Block) : SysM Unit := do
  let b ← getBuf i
  setBuf i { b with data := f b.data }

def getLog : SysM Log := do
  let s ← get
  return s.machine.log

def setLog (f : Log → Log) : SysM Unit :=
  modify fun s => { s with machine := { s.machine with log := f s.machine.log } }

def installOne (tail : Nat) : SysM Unit := do
  let log ← getLog
  let lbuf ← bufcacheRead log.dev (log.start + BitVec.ofNat 32 tail + 1)
  let dbuf ← bufcacheRead log.dev (log.lh.sector tail)
  let l ← getBuf lbuf
  modifyData dbuf fun _ => l.data
  bufcacheWrite dbuf
  bufcacheRelease lbuf
  bufcacheRelease dbuf

def installTrans : SysM Unit := do
  let log ← getLog
  forUp installOne 0 log.lh.n.toNat

def writeHead : SysM Unit := do
  let log ← getLog
  let buf ← bufcacheRead log.dev log.start
  modifyData buf log.lh.store
  bufcacheWrite buf
  bufcacheRelease buf

def clearCount : SysM Unit := setLog fun log => { log with lh := { log.lh with n := 0 } }

def beginTrans : SysM Unit := do
  let log ← getLog
  if log.busy then throw .sleeps
  else setLog fun log => { log with busy := true }

def commitTrans : SysM Unit := do
  let log ← getLog
  if 0 < log.lh.n then
    writeHead
    installTrans
    clearCount
    writeHead
  setLog fun log => { log with busy := false }

def logWrite (i : Fin nbuf) : SysM Unit := do
  let log ← getLog
  let b ← getBuf i
  if log.lh.n ≥ logSize ∨ log.lh.n ≥ log.size - 1 then throw .tooBig
  else if !log.busy then throw .outsideTrans
  else
    let slot := log.lh.slot b.sector
    setLog fun log =>
      { log with lh := { log.lh with sector := Function.update log.lh.sector slot b.sector } }
    let lbuf ← bufcacheRead b.dev (log.start + BitVec.ofNat 32 slot + 1)
    modifyData lbuf fun _ => b.data
    bufcacheWrite lbuf
    bufcacheRelease lbuf
    if (slot : Int) = log.lh.n then
      setLog fun log => { log with lh := { log.lh with n := log.lh.n + 1 } }
    let b ← getBuf i
    setBuf i { b with dirty := true }

def update (u : Update) : SysM Unit := do
  let i ← bufcacheRead rootDev (BitVec.ofNat 32 u.sector.val)
  modifyData i u.change
  logWrite i
  bufcacheRelease i

def transaction (us : List Update) : SysM Unit := do
  beginTrans
  us.forM update
  commitTrans

/-! ## 2. The same programs -/

/-- From the state both return the same, with the same disk and memory, or both stop. -/
def NamesAt {α : Type} (m : SysM α) (p : FsM α) (d : Disk) (s : Machine) : Prop :=
  Crash.after d (p d s).1 = (match m ⟨d, s⟩ with
      | .ok _ s' => s'.disk
      | .error _ s' => s'.disk) ∧
    (p d s).2 = match m ⟨d, s⟩ with
      | .ok a s' => some (a, s'.machine)
      | .error _ _ => none

def Names {α : Type} (m : SysM α) (p : FsM α) : Prop := ∀ d s, NamesAt m p d s

section Names

variable {α β : Type} {m m' : SysM α} {p p' : FsM α}

theorem names_pure (a : α) : Names (pure a) (pure a) := fun _ _ => ⟨rfl, rfl⟩

theorem names_stop (e : Stop) : Names (throw e : SysM α) Crash.Prog.halt := fun _ _ => ⟨rfl, rfl⟩

theorem names_bind {f : α → SysM β} {g : α → FsM β} (hm : Names m p) (hf : ∀ a, Names (f a) (g a)) :
    Names (m >>= f) (p >>= g) := by
  intro d s
  obtain ⟨hdisk, hresult⟩ := hm d s
  have hstep : (m >>= f) ⟨d, s⟩ = EStateM.bind m f ⟨d, s⟩ := rfl
  unfold NamesAt
  rw [hstep]
  unfold EStateM.bind
  cases hp : p d s with
  | mk ws r =>
    rw [hp] at hdisk hresult
    cases hms : m ⟨d, s⟩ with
    | ok a s' =>
      rw [hms] at hdisk hresult
      dsimp only at hdisk hresult ⊢
      rw [hresult] at hp
      rw [Crash.bind_returned g hp]
      rw [Crash.after_append, hdisk]
      exact hf a s'.disk s'.machine
    | error e s' =>
      rw [hms] at hdisk hresult
      dsimp only at hdisk hresult ⊢
      rw [hresult] at hp
      rw [Crash.bind_halted g hp]
      exact ⟨hdisk, rfl⟩

theorem namesAt_ite {c : Prop} [Decidable c] {d : Disk} {s : Machine} (h : NamesAt m p d s)
    (h' : NamesAt m' p' d s) : NamesAt (if c then m else m') (if c then p else p') d s := by
  split
  · exact h
  · exact h'

theorem names_ite {c : Prop} [Decidable c] (h : Names m p) (h' : Names m' p') :
    Names (if c then m else m') (if c then p else p') :=
  fun d s => namesAt_ite (h d s) (h' d s)

theorem names_setBuf (i : Fin nbuf) (b : Buf) : Names (setBuf i b) (Fs.setBuf i b) :=
  fun _ _ => ⟨rfl, rfl⟩

theorem names_getBuf (i : Fin nbuf) : Names (getBuf i) (Fs.getBuf i) := fun _ _ => ⟨rfl, rfl⟩

theorem names_getLog : Names getLog Fs.getLog := fun _ _ => ⟨rfl, rfl⟩

theorem names_setLog (f : Log → Log) : Names (setLog f) (Fs.setLog f) := fun _ _ => ⟨rfl, rfl⟩

theorem names_forM {ι : Type} {f : ι → SysM PUnit} {g : ι → FsM PUnit} (xs : List ι)
    (h : ∀ x, Names (f x) (g x)) : Names (xs.forM f) (xs.forM g) := by
  induction xs with
  | nil => exact names_pure _
  | cons x xs ih => exact names_bind (h x) fun _ => ih

theorem names_forUp {f : Nat → SysM Unit} {g : Nat → FsM Unit} (h : ∀ k, Names (f k) (g k))
    (n : Nat) : ∀ k, Names (forUp f k n) (Crash.Prog.forUp g k n) := by
  induction n with
  | zero => exact fun _ => names_pure _
  | succ n ih => exact fun k => names_bind (h k) fun _ => ih (k + 1)

theorem names_ideRw (i : Fin nbuf) : Names (ideRw i) (Fs.ideRw i) := by
  intro d s
  -- both look at the state first
  apply namesAt_ite (names_stop _ d s)
  apply namesAt_ite (names_stop _ d s)
  apply namesAt_ite (names_stop _ d s)
  exact namesAt_ite ⟨rfl, rfl⟩ ⟨rfl, rfl⟩

theorem names_bufcacheGet (dev sector : BitVec 32) :
    Names (bufcacheGet dev sector) (Fs.bufcacheGet dev sector) := by
  intro d s
  show NamesAt (match s.bcache.order.find? fun i => (s.bcache.buf i).holds dev sector with
    | some i => _
    | none => _) (match s.bcache.order.find? fun i => (s.bcache.buf i).holds dev sector with
    | some i => _
    | none => _) d s
  cases s.bcache.order.find? fun i => (s.bcache.buf i).holds dev sector with
  | some i =>
    exact names_ite (names_stop _) (names_bind (names_setBuf _ _) fun _ => names_pure _) d s
  | none =>
    show NamesAt (match s.bcache.order.reverse.find? fun i => (s.bcache.buf i).idle with
      | some i => _
      | none => _) (match s.bcache.order.reverse.find? fun i => (s.bcache.buf i).idle with
      | some i => _
      | none => _) d s
    cases s.bcache.order.reverse.find? fun i => (s.bcache.buf i).idle with
    | some i => exact names_bind (names_setBuf _ _) (fun _ => names_pure _) d s
    | none => exact names_stop _ d s

theorem names_bufcacheRead (dev sector : BitVec 32) :
    Names (bufcacheRead dev sector) (Fs.bufcacheRead dev sector) :=
  names_bind (names_bufcacheGet dev sector) fun i =>
    names_bind (names_getBuf i) fun _ =>
      names_ite (names_bind (names_ideRw i) fun _ => names_pure _) (names_pure _)

theorem names_bufcacheWrite (i : Fin nbuf) : Names (bufcacheWrite i) (Fs.bufcacheWrite i) :=
  names_bind (names_getBuf i) fun _ =>
    names_ite (names_stop _) (names_bind (names_setBuf _ _) fun _ => names_ideRw i)

theorem names_bufcacheRelease (i : Fin nbuf) : Names (bufcacheRelease i) (Fs.bufcacheRelease i) :=
  names_bind (names_getBuf i) fun _ =>
    names_ite (names_stop _) (names_bind (fun _ _ => ⟨rfl, rfl⟩) fun _ => names_setBuf _ _)

theorem names_modifyData (i : Fin nbuf) (f : Block → Block) :
    Names (modifyData i f) (Fs.modifyData i f) :=
  names_bind (names_getBuf i) fun _ => names_setBuf _ _

theorem names_installOne (tail : Nat) : Names (installOne tail) (Fs.installOne tail) :=
  names_bind names_getLog fun _ =>
    names_bind (names_bufcacheRead _ _) fun lbuf =>
      names_bind (names_bufcacheRead _ _) fun _ =>
        names_bind (names_getBuf lbuf) fun _ =>
          names_bind (names_modifyData _ _) fun _ =>
            names_bind (names_bufcacheWrite _) fun _ =>
              names_bind (names_bufcacheRelease _) fun _ => names_bufcacheRelease _

theorem names_writeHead : Names writeHead Fs.writeHead :=
  names_bind names_getLog fun _ =>
    names_bind (names_bufcacheRead _ _) fun _ =>
      names_bind (names_modifyData _ _) fun _ =>
        names_bind (names_bufcacheWrite _) fun _ => names_bufcacheRelease _

theorem names_commitTrans : Names commitTrans Fs.commitTrans :=
  names_bind names_getLog fun _ =>
    names_ite
      (names_bind names_writeHead fun _ =>
        names_bind (names_bind names_getLog fun _ => names_forUp names_installOne _ _) fun _ =>
          names_bind (names_setLog _) fun _ =>
            names_bind names_writeHead fun _ => names_setLog _)
      (names_setLog _)

theorem names_logWrite (i : Fin nbuf) : Names (logWrite i) (Fs.logWrite i) :=
  names_bind names_getLog fun _ =>
    names_bind (names_getBuf i) fun _ =>
      names_ite (names_stop _)
        (names_ite (names_stop _)
          (names_bind (names_setLog _) fun _ =>
            names_bind (names_bufcacheRead _ _) fun _ =>
              names_bind (names_modifyData _ _) fun _ =>
                names_bind (names_bufcacheWrite _) fun _ =>
                  names_bind (names_bufcacheRelease _) fun _ =>
                    names_ite
                      (names_bind (names_setLog _) fun _ =>
                        names_bind (names_getBuf i) fun _ => names_setBuf _ _)
                      (names_bind (names_getBuf i) fun _ => names_setBuf _ _)))

theorem names_update (u : Update) : Names (update u) u.run :=
  names_bind (names_bufcacheRead _ _) fun _ =>
    names_bind (names_modifyData _ _) fun _ =>
      names_bind (names_logWrite _) fun _ => names_bufcacheRelease _

/-- A transaction here is one of the file system, with the reason for its stop. -/
theorem names_transaction (us : List Update) : Names (transaction us) (Fs.transaction us) :=
  names_bind (names_bind names_getLog fun _ => names_ite (names_stop _) (names_setLog _)) fun _ =>
    names_bind (names_forM us names_update) fun _ => names_commitTrans

end Names

/-! ## 3. Which buffers are pinned -/

/-- The buffers in `H` are held, only buffers for the sectors `T` are pinned, and those for the
sectors `D` are dirty. -/
structure Fit (D T : Finset Lba) (H : List (Fin nbuf)) (c : Bcache) : Prop where
  order : ∀ i, i ∈ c.order
  unique : ∀ i j k, (c.buf i).At k → (c.buf j).At k → i = j
  valid : ∀ i k, (c.buf i).At k → (c.buf i).valid = true
  pinned : ∀ i, (c.buf i).idle = false → ∃ k ∈ T, (c.buf i).At k
  busy : ∀ i, (c.buf i).busy = true ↔ i ∈ H
  dirty : ∀ k ∈ D, ∃ i, (c.buf i).At k ∧ (c.buf i).dirty = true

variable {b : Buf}

theorem idle_of_dirty (h : b.dirty = true) : b.idle = false := by
  unfold Buf.idle
  rw [h, Bool.not_true, Bool.and_false]

theorem idle_of_busy (h : b.busy = true) : b.idle = false := by
  unfold Buf.idle
  rw [h, Bool.not_true, Bool.false_and]

theorem idle_cases (h : b.idle = false) : b.busy = true ∨ b.dirty = true := by
  unfold Buf.idle at h
  rw [Bool.and_eq_false_iff, Bool.not_eq_false', Bool.not_eq_false'] at h
  exact h

theorem idle_flags (h : b.idle = true) : b.busy = false ∧ b.dirty = false := by
  unfold Buf.idle at h
  rw [Bool.and_eq_true, Bool.not_eq_true', Bool.not_eq_true'] at h
  exact h

section Fit

variable {D D' T T' : Finset Lba} {H H' : List (Fin nbuf)} {c : Bcache} {i : Fin nbuf} {k : Lba}
  {b : Buf}

theorem Fit.mono (h : Fit D T H c) (hD : D' ⊆ D) (hT : T ⊆ T') : Fit D' T' H c where
  order := h.order
  unique := h.unique
  valid := h.valid
  pinned i hi := by
    obtain ⟨k, hk, hat⟩ := h.pinned i hi
    exact ⟨k, hT hk, hat⟩
  busy := h.busy
  dirty k hk := h.dirty k (hD hk)

theorem Fit.full (h : Fit D T H c) (hall : ∀ i, (c.buf i).idle = false)
    (hmiss : ∀ i, ¬ (c.buf i).At k) : nbuf ≤ (T.erase k).card := by
  choose sector hsector using fun i => h.pinned i (hall i)
  have hcard : (Finset.univ : Finset (Fin nbuf)).card ≤ (T.erase k).card := by
    apply Finset.card_le_card_of_injOn sector
    · intro i _
      refine Finset.mem_coe.mpr (Finset.mem_erase.mpr ⟨?_, (hsector i).1⟩)
      rintro rfl
      exact hmiss i (hsector i).2
    · intro i _ j _ hij
      have hj := (hsector j).2
      rw [← hij] at hj
      exact h.unique i j _ (hsector i).2 hj
  rwa [Finset.card_univ, Fintype.card_fin] at hcard

theorem pinned_all {S : Finset Lba} (hS : nbuf ≤ S.card)
    (hpinned : ∀ k ∈ S, ∃ i, (c.buf i).At k ∧ (c.buf i).idle = false) (j : Fin nbuf) :
    (∃ k ∈ S, (c.buf j).At k) ∧ (c.buf j).idle = false := by
  have : Nonempty (Fin nbuf) := ⟨j⟩
  choose! place hplace using hpinned
  have hinj : Set.InjOn place S := by
    intro k hk k' hk' he
    have hat := (hplace k' hk').1
    rw [← he] at hat
    exact Buf.at_inj (hplace k hk).1 hat
  have hsurj : S.image place = Finset.univ := by
    apply Finset.eq_univ_of_card
    rw [Fintype.card_fin]
    apply Nat.le_antisymm
    · calc (S.image place).card ≤ (Finset.univ : Finset (Fin nbuf)).card :=
            Finset.card_le_card (Finset.subset_univ _)
        _ = nbuf := by rw [Finset.card_univ, Fintype.card_fin]
    · rw [Finset.card_image_of_injOn hinj]
      exact hS
  have hj : j ∈ S.image place := by
    rw [hsurj]
    exact Finset.mem_univ j
  obtain ⟨k, hk, rfl⟩ := Finset.mem_image.mp hj
  exact ⟨⟨k, hk, (hplace k hk).1⟩, (hplace k hk).2⟩

theorem Fit.replace (h : Fit D T H c)
    (hold : (c.buf i).At k ∨ ((c.buf i).idle = true ∧ ∀ j, ¬ (c.buf j).At k)) (hb : b.At k)
    (hvalid : b.valid = true) (hpin : b.idle = false → k ∈ T')
    (hT : ∀ k', k' ≠ k → k' ∈ T → k' ∈ T') (hbusy : b.busy = true ↔ i ∈ H')
    (hH : ∀ j, j ≠ i → (j ∈ H' ↔ j ∈ H)) (hdirty : k ∈ D' → b.dirty = true)
    (hD : ∀ k', k' ≠ k → k' ∈ D' → k' ∈ D) : Fit D' T' H' (c.set i b) := by
  -- no other buffer is for `k`
  have hother : ∀ j, j ≠ i → ¬ (c.buf j).At k := by
    intro j hj hk
    rcases hold with hi | ⟨_, hno⟩
    · exact hj (h.unique j i k hk hi)
    · exact hno j hk
  refine ⟨h.order, fun j j' k' hj hj' => ?_, fun j k' hj => ?_, fun j hj => ?_, fun j => ?_,
    fun k' hk' => ?_⟩
  · by_cases hji : j = i
    · subst hji
      by_contra hne
      rw [Bcache.set_same] at hj
      rw [Bcache.set_other c (Ne.symm hne)] at hj'
      obtain rfl := Buf.at_inj hb hj
      exact hother j' (Ne.symm hne) hj'
    · rw [Bcache.set_other c hji] at hj
      by_cases hji' : j' = i
      · subst hji'
        rw [Bcache.set_same] at hj'
        obtain rfl := Buf.at_inj hb hj'
        exact absurd hj (hother j hji)
      · rw [Bcache.set_other c hji'] at hj'
        exact h.unique j j' k' hj hj'
  · by_cases hji : j = i
    · subst hji
      rw [Bcache.set_same]
      exact hvalid
    · rw [Bcache.set_other c hji] at hj ⊢
      exact h.valid j k' hj
  · by_cases hji : j = i
    · subst hji
      rw [Bcache.set_same] at hj ⊢
      exact ⟨k, hpin hj, hb⟩
    · rw [Bcache.set_other c hji] at hj ⊢
      obtain ⟨k', hk', hat⟩ := h.pinned j hj
      refine ⟨k', hT k' ?_ hk', hat⟩
      rintro rfl
      exact hother j hji hat
  · by_cases hji : j = i
    · subst hji
      rw [Bcache.set_same]
      exact hbusy
    · rw [Bcache.set_other c hji, h.busy j, hH j hji]
  · by_cases hkk : k' = k
    · subst hkk
      refine ⟨i, ?_⟩
      rw [Bcache.set_same]
      exact ⟨hb, hdirty hk'⟩
    · obtain ⟨j, hat, hjd⟩ := h.dirty k' (hD k' hkk hk')
      have hji : j ≠ i := by
        rintro rfl
        rcases hold with hi | ⟨hidle, _⟩
        · exact hkk (Buf.at_inj hat hi)
        · rw [(idle_flags hidle).2] at hjd
          contradiction
      refine ⟨j, ?_⟩
      rw [Bcache.set_other c hji]
      exact ⟨hat, hjd⟩

theorem Fit.change (h : Fit D T H c) (hi : i ∈ H) (hat : (c.buf i).At k) (hb : b.At k)
    (hbusy : b.busy = true) (hvalid : b.valid = true) (hT : k ∈ T)
    (hdirty : k ∈ D' → b.dirty = true) (hD : ∀ k', k' ≠ k → k' ∈ D' → k' ∈ D) :
    Fit D' T H (c.set i b) :=
  h.replace (Or.inl hat) hb hvalid (fun _ => hT) (fun _ _ hk => hk)
    (iff_of_true hbusy hi) (fun _ _ => Iff.rfl) hdirty hD

theorem Fit.held (h : Fit D T H c) (hH : ∀ j, j ∈ H ↔ j ∈ H') : Fit D T H' c :=
  ⟨h.order, h.unique, h.valid, h.pinned, fun i => (h.busy i).trans (hH i), h.dirty⟩

theorem Fit.reorder (h : Fit D T H c) (i : Fin nbuf) :
    Fit D T H { c with order := i :: c.order.erase i } where
  order j := by
    by_cases hji : j = i
    · rw [hji]
      exact List.mem_cons_self
    · exact List.mem_cons_of_mem _ ((List.mem_erase_of_ne hji).mpr (h.order j))
  unique := h.unique
  valid := h.valid
  pinned := h.pinned
  busy := h.busy
  dirty := h.dirty

end Fit

/-! ## 4. The operations -/

section Operations

variable {D T : Finset Lba} {H : List (Fin nbuf)} {s : System} {i : Fin nbuf} {k : Lba}
  {R : Stop → System → Prop} {Q : Unit → System → Prop}

@[simp] theorem wp_getBuf {Q : Buf → System → Prop} : wp (getBuf i) Q R s ↔ Q (s.buf i) s := Iff.rfl

@[simp] theorem wp_setBuf : wp (setBuf i b) Q R s ↔ Q () (s.setBuf i b) := Iff.rfl

@[simp] theorem wp_getLog {Q : Log → System → Prop} : wp getLog Q R s ↔ Q s.machine.log s := Iff.rfl

@[simp] theorem wp_setLog {f : Log → Log} :
    wp (setLog f) Q R s ↔
      Q () { s with machine := { s.machine with log := f s.machine.log } } := Iff.rfl

structure Step (i : Fin nbuf) (s s' : System) : Prop where
  others : ∀ j, j ≠ i → s'.buf j = s.buf j
  log : s'.machine.log = s.machine.log
  disk1 : s'.machine.haveDisk1 = s.machine.haveDisk1

theorem step_setBuf (s : System) (i : Fin nbuf) (b : Buf) : Step i s (s.setBuf i b) :=
  ⟨fun _ hj => Bcache.set_other _ hj _, rfl, rfl⟩

theorem Step.trans {s' s'' : System} (h : Step i s s') (h' : Step i s' s'') : Step i s s'' :=
  ⟨fun j hj => (h'.others j hj).trans (h.others j hj), h'.log.trans h.log, h'.disk1.trans h.disk1⟩

@[simp] theorem setBuf_buf (s : System) (i : Fin nbuf) (b : Buf) : (s.setBuf i b).buf i = b :=
  Bcache.set_same _ _ _

/-- `bufcache_read` of a sector.  It sleeps if the sector is held, it has no buffer only when all
are pinned for other sectors, and it takes a buffer of the sector or an idle one. -/
theorem wp_bufcacheRead {Q : Fin nbuf → System → Prop} (h : Fit D T H s.machine.bcache)
    (hsleep : ∀ i ∈ H, (s.buf i).At k → R .sleeps s)
    (hfull : nbuf ≤ (T.erase k).card → R .noBuffers s)
    (hide : s.machine.haveDisk1 = false → ∀ s', R .ide s')
    (hQ : ∀ i s', i ∉ H → ((s.buf i).At k ∨ (s.buf i).idle = true) → Step i s s' →
      Fit D (insert k T) (i :: H) s'.machine.bcache → (s'.buf i).At k →
      ((s'.buf i).dirty = true → k ∈ T) → Q i s') :
    wp (bufcacheRead rootDev (sectorWord k)) Q R s := by
  unfold bufcacheRead bufcacheGet
  rw [wp_bind, wp_bind, wp_get]
  cases hfind : s.machine.bcache.order.find? fun i => (s.buf i).holds rootDev (sectorWord k) with
  | some i =>
    -- the sector is cached
    have hhit := List.find?_some hfind
    have hat : (s.buf i).At k := Buf.holds_iff.mp hhit
    have hvalid := h.valid i k hat
    dsimp only
    by_cases hbusy : (s.buf i).busy = true
    · rw [if_pos hbusy]
      exact hsleep i ((h.busy i).mp hbusy) hat
    · rw [if_neg hbusy, wp_bind, wp_setBuf, wp_pure, wp_bind, wp_getBuf, setBuf_buf,
        if_neg (by rw [show (s.buf i).valid = true from hvalid]; decide), wp_pure]
      have hnot : i ∉ H := fun hi => hbusy ((h.busy i).mpr hi)
      have hdirty : (s.buf i).dirty = true → k ∈ T := by
        intro hd
        obtain ⟨k', hk', hat'⟩ := h.pinned i (idle_of_dirty hd)
        rwa [Buf.at_inj hat hat']
      apply hQ i _ hnot (Or.inl hat) (step_setBuf s i _)
      · apply h.replace (Or.inl hat) (b := { s.buf i with busy := true }) hat hvalid
          (fun _ => Finset.mem_insert_self k T) (fun _ _ hk => Finset.mem_insert_of_mem hk)
          (iff_of_true rfl List.mem_cons_self)
          (fun j hj => ⟨fun hm => (List.mem_cons.mp hm).resolve_left hj, List.mem_cons_of_mem i⟩)
        · intro hk
          obtain ⟨j, hatj, hd⟩ := h.dirty k hk
          rw [h.unique j i k hatj hat] at hd
          exact hd
        · exact fun _ _ hk => hk
      · rw [setBuf_buf]
        exact hat
      · rw [setBuf_buf]
        exact hdirty
  | none =>
    have hmiss : ∀ j, ¬ (s.buf j).At k := by
      intro j hj
      exact List.find?_eq_none.mp hfind j (h.order j) (Buf.holds_iff.mpr hj)
    cases hidle : s.machine.bcache.order.reverse.find? fun i => (s.buf i).idle with
    | none =>
      apply hfull
      apply h.full _ hmiss
      intro j
      have hj := List.find?_eq_none.mp hidle j (List.mem_reverse.mpr (h.order j))
      exact Bool.eq_false_of_not_eq_true hj
    | some i =>
      -- the least recently used idle buffer is recycled and filled from the disk
      have hi := List.find?_some hidle
      have hnot : i ∉ H := by
        intro hm
        have hbusy : (s.buf i).busy = true := (h.busy i).mpr hm
        rw [(idle_flags hi).1] at hbusy
        contradiction
      rw [wp_bind, wp_setBuf, wp_pure, wp_bind, wp_getBuf, setBuf_buf, if_pos (by rfl), wp_bind]
      unfold ideRw
      rw [wp_bind, wp_get, setBuf_buf]
      dsimp only
      rw [if_neg (by decide), if_neg (by decide)]
      by_cases hdisk : s.machine.haveDisk1 = false
      · rw [if_pos ⟨by decide, hdisk⟩]
        exact hide hdisk _
      · rw [if_neg fun hd => hdisk hd.2, if_neg (by decide), wp_setBuf, wp_pure]
        apply hQ i _ hnot (Or.inr hi) ((step_setBuf s i _).trans (step_setBuf _ i _))
        · show Fit D (insert k T) (i :: H) ((s.machine.bcache.set i _).set i _)
          rw [Bcache.set_set]
          apply h.replace (Or.inr ⟨hi, hmiss⟩) ⟨rfl, rfl⟩ rfl
            (fun _ => Finset.mem_insert_self k T) (fun _ _ hk => Finset.mem_insert_of_mem hk)
            (iff_of_true rfl List.mem_cons_self)
            (fun j hj => ⟨fun hm => (List.mem_cons.mp hm).resolve_left hj, List.mem_cons_of_mem i⟩)
          · intro hk
            obtain ⟨j, hatj, _⟩ := h.dirty k hk
            exact absurd hatj (hmiss j)
          · exact fun _ _ hk => hk
        · rw [setBuf_buf]
          exact ⟨rfl, rfl⟩
        · rw [setBuf_buf]
          exact fun hd => Bool.noConfusion hd

theorem wp_modifyData {f : Block → Block}
    (h : Fit D T H s.machine.bcache) (hi : i ∈ H) (hat : (s.buf i).At k) (hT : k ∈ T)
    (hQ : ∀ s', Step i s s' → Fit D T H s'.machine.bcache → (s'.buf i).At k →
      (s'.buf i).dirty = (s.buf i).dirty → Q () s') : wp (modifyData i f) Q R s := by
  unfold modifyData
  rw [wp_bind, wp_getBuf, wp_setBuf]
  apply hQ _ (step_setBuf s i _)
  · apply h.change hi hat (b := { s.buf i with data := f (s.buf i).data }) hat ((h.busy i).mpr hi)
      (h.valid i k hat) hT
    · intro hk
      obtain ⟨j, hatj, hd⟩ := h.dirty k hk
      rw [h.unique j i k hatj hat] at hd
      exact hd
    · exact fun _ _ hk => hk
  · rw [setBuf_buf]
    exact hat
  · rw [setBuf_buf]

theorem wp_bufcacheWrite (h : Fit D T H s.machine.bcache) (hi : i ∈ H)
    (hat : (s.buf i).At k) (hT : k ∈ T) (hD : k ∉ D)
    (hide : s.machine.haveDisk1 = false → ∀ s', R .ide s')
    (hQ : ∀ s', Step i s s' → Fit D T H s'.machine.bcache → (s'.buf i).At k →
      (s'.buf i).dirty = false → Q () s') : wp (bufcacheWrite i) Q R s := by
  have hbusy : (s.buf i).busy = true := (h.busy i).mpr hi
  unfold bufcacheWrite ideRw
  rw [wp_bind, wp_getBuf, hbusy, if_neg (by decide), wp_bind, wp_setBuf, wp_bind, wp_get, setBuf_buf]
  dsimp only
  rw [if_neg (by decide), if_neg (by simp)]
  by_cases hdisk : s.machine.haveDisk1 = false
  · rw [if_pos ⟨by rw [hat.1]; decide, hdisk⟩]
    exact hide hdisk _
  · rw [if_neg fun hd => hdisk hd.2, if_pos rfl, wp_bind, wp_set, wp_setBuf]
    apply hQ
    · exact ⟨fun j hj => (Bcache.set_other _ hj _).trans (Bcache.set_other _ hj _), rfl, rfl⟩
    · show Fit D T H ((s.machine.bcache.set i _).set i _)
      rw [Bcache.set_set]
      apply h.change hi hat
        (b := { s.buf i with busy := true, valid := true, dirty := false }) hat rfl rfl hT
      · exact fun hk => absurd hk hD
      · exact fun _ _ hk => hk
    · rw [setBuf_buf]
      exact hat
    · rw [setBuf_buf]

theorem wp_bufcacheRelease {P : Finset Lba}
    (h : Fit D T (i :: H) s.machine.bcache) (hnot : i ∉ H) (hat : (s.buf i).At k)
    (hdirty : (s.buf i).dirty = true → k ∈ P) (hT : ∀ k', k' ≠ k → k' ∈ T → k' ∈ P)
    (hQ : ∀ s', Step i s s' → Fit D P H s'.machine.bcache → Q () s') :
    wp (bufcacheRelease i) Q R s := by
  have hbusy : (s.buf i).busy = true := (h.busy i).mpr List.mem_cons_self
  unfold bufcacheRelease
  rw [wp_bind, wp_getBuf, hbusy, if_neg (by decide), wp_bind, wp_modify, wp_setBuf]
  apply hQ
  · exact ⟨fun j hj => Bcache.set_other _ hj _, rfl, rfl⟩
  · apply (h.reorder i).replace (Or.inl hat) (b := { s.buf i with busy := false }) hat
      (h.valid i k hat)
    · intro hidle
      rcases idle_cases hidle with hb | hd
      · exact Bool.noConfusion hb
      · exact hdirty hd
    · exact hT
    · exact iff_of_false Bool.false_ne_true hnot
    · exact fun j hj => ⟨List.mem_cons_of_mem i, fun hm => (List.mem_cons.mp hm).resolve_left hj⟩
    · intro hk
      obtain ⟨j, hatj, hd⟩ := h.dirty k hk
      rw [h.unique j i k hatj hat] at hd
      exact hd
    · exact fun _ _ hk => hk

end Operations

/-! ## 5. Updates -/

section Updates

variable {l : Layout} {D : Finset Lba} {logged : List Lba} {s : System} {i : Fin nbuf}
  {Allowed : Stop → Prop} {Q : Unit → System → Prop}

/-- Between two updates of a transaction that has logged the sectors `logged`. -/
structure Between (l : Layout) (D : Finset Lba) (logged : List Lba) (s : System) : Prop where
  fit : Fit D logged.toFinset [] s.machine.bcache
  ready : Ready l s.machine.log logged
  busy : s.machine.log.busy = true
  nodup : logged.Nodup
  length_lt : logged.length < l.nlog

structure Stops (l : Layout) (logged : List Lba) (a : Lba) (disk1 : Bool) (Allowed : Stop → Prop) :
    Prop where
  sleeps : l.InLog a → Allowed .sleeps
  tooBig : logSize ≤ logged.length ∨ l.nlog ≤ logged.length + 1 → Allowed .tooBig
  noBuffers : a ∉ logged → nbuf ≤ logged.length + 1 → logged.length + 1 < l.nlog →
    Allowed .noBuffers
  ide : disk1 = false → Allowed .ide

theorem addLogged_toFinset (a : Lba) :
    (addLogged logged a).toFinset = insert a logged.toFinset := by
  ext k
  rw [List.mem_toFinset, mem_addLogged, Finset.mem_insert, List.mem_toFinset]

theorem Fit.spare {T : Finset Lba} {c : Bcache} {a k : Lba} {j : Fin nbuf} (h : Fit D T [i] c)
    (hat : (c.buf i).At a) (hwas : (c.buf j).At k ∨ (c.buf j).idle = true)
    (hk : k ∉ insert a D) : (insert a D).card < nbuf := by
  by_contra hcard
  have hall := pinned_all (c := c) (Nat.le_of_not_lt hcard) (fun k' hk' => ?_) j
  · obtain ⟨⟨k', hk', hat'⟩, hpinned⟩ := hall
    rcases hwas with hatk | hidle
    · rw [Buf.at_inj hatk hat'] at hk
      exact hk hk'
    · rw [hidle] at hpinned
      contradiction
  · rcases Finset.mem_insert.mp hk' with rfl | hk'
    · exact ⟨i, hat, idle_of_busy ((h.busy i).mpr List.mem_cons_self)⟩
    · obtain ⟨j', hat', hd⟩ := h.dirty k' hk'
      exact ⟨j', hat', idle_of_dirty hd⟩

theorem wp_logWrite {a : Lba} (hfit : Fit D (addLogged logged a).toFinset [i] s.machine.bcache)
    (hready : Ready l s.machine.log logged) (hbusy : s.machine.log.busy = true)
    (hnodup : logged.Nodup) (hat : (s.buf i).At a) (hD : ∀ k ∈ D, ¬ l.InLog k)
    (hstops : Stops l logged a s.machine.haveDisk1 Allowed)
    (hQ : ∀ s', Fit (insert a D) (addLogged logged a).toFinset [i] s'.machine.bcache →
      Ready l s'.machine.log (addLogged logged a) → s'.machine.log.busy = true →
      (addLogged logged a).length < l.nlog → (s'.buf i).At a →
      s'.machine.haveDisk1 = s.machine.haveDisk1 →
      (¬ l.InLog a → (insert a D).card < nbuf) → Q () s') :
    wp (logWrite i) Q (fun e _ => Allowed e) s := by
  unfold logWrite
  rw [wp_bind, wp_getLog, wp_bind, wp_getBuf]
  by_cases hbig : s.machine.log.lh.n ≥ logSize ∨ s.machine.log.lh.n ≥ s.machine.log.size - 1
  · rw [if_pos hbig]
    apply hstops.tooBig
    rw [hready.count, hready.size] at hbig
    omega
  rw [if_neg hbig, if_neg (by rw [hbusy]; decide)]
  rw [hready.count, hready.size, not_or] at hbig
  have hslot : s.machine.log.lh.slot (s.buf i).sector = logged.idxOf a := by
    rw [hat.2]
    exact hready.slot_eq a
  have hidx : logged.idxOf a ≤ logged.length := List.idxOf_le_length
  have hroom : logged.idxOf a + 1 < l.nlog := by omega
  have hinLog := l.logLba_inLog hroom
  have haddr : s.machine.log.start + BitVec.ofNat 32 (logged.idxOf a) + 1 =
      sectorWord (l.logLba (logged.idxOf a + 1)) := by
    rw [hready.start, l.logLba_word hroom]
  generalize hblock : l.logLba (logged.idxOf a + 1) = block at hinLog haddr
  have hlength : (addLogged logged a).toFinset.card = (addLogged logged a).length :=
    List.toFinset_card_of_nodup (addLogged_nodup hnodup)
  rw [wp_bind, wp_setLog, wp_bind, hslot, haddr, hat.1, hat.2]
  apply wp_bufcacheRead (D := D) (T := (addLogged logged a).toFinset) (H := [i])
  · exact hfit
  · -- the sector is its own block of the log
    intro j hj hatj
    rw [List.mem_singleton.mp hj] at hatj
    apply hstops.sleeps
    rw [Buf.at_inj hat hatj]
    exact hinLog
  · intro hfull
    have hle := Finset.card_erase_le (a := block) (s := (addLogged logged a).toFinset)
    rw [hlength, addLogged_length] at hle
    by_cases ha : a ∈ logged
    · have hlt := List.idxOf_lt_length_of_mem ha
      rw [if_neg (by omega)] at hle
      unfold nbuf at hfull
      unfold logSize at hbig
      omega
    · rw [if_pos (List.idxOf_eq_length ha)] at hle
      exact hstops.noBuffers ha (by omega) (by omega)
  · exact fun hdisk _ => hstops.ide hdisk
  intro j s₂ hj hwas h₂ hfit₂ hat₂ _
  have hji : j ≠ i := fun he => hj (List.mem_singleton.mpr he)
  rw [wp_bind]
  apply wp_modifyData hfit₂ List.mem_cons_self hat₂ (Finset.mem_insert_self _ _)
  intro s₃ h₃ hfit₃ hat₃ _
  rw [wp_bind]
  apply wp_bufcacheWrite hfit₃ List.mem_cons_self hat₃ (Finset.mem_insert_self _ _)
    (fun hk => hD _ hk hinLog)
    (fun hdisk _ => hstops.ide (h₂.disk1.symm.trans (h₃.disk1.symm.trans hdisk)))
  intro s₄ h₄ hfit₄ hat₄ hclean
  rw [wp_bind]
  apply wp_bufcacheRelease (P := (addLogged logged a).toFinset) hfit₄ hj hat₄
    (fun hd => absurd (hclean.symm.trans hd) Bool.false_ne_true)
    (fun k' hne hk' => (Finset.mem_insert.mp hk').resolve_left hne)
  intro s₅ h₅ hfit₅
  have hbuf : s₅.buf i = s.buf i := by
    rw [h₅.others i hji.symm, h₄.others i hji.symm, h₃.others i hji.symm, h₂.others i hji.symm]
    rfl
  have hlog : s₅.machine.log = _ := h₅.log.trans (h₄.log.trans (h₃.log.trans h₂.log))
  have hdisk1 := h₅.disk1.trans (h₄.disk1.trans (h₃.disk1.trans h₂.disk1))
  -- the count goes up when the sector was not logged before
  have hlast : ∀ s₆ : System, s₆.machine.bcache = s₅.machine.bcache →
      s₆.machine.haveDisk1 = s₅.machine.haveDisk1 →
      s₆.machine.log = { s.machine.log with
        lh :=
          { n := s.machine.log.lh.n + if logged.idxOf a = logged.length then 1 else 0
            sector := Function.update s.machine.log.lh.sector (logged.idxOf a) (sectorWord a) } } →
      wp (do let b ← getBuf i; setBuf i { b with dirty := true }) Q (fun e _ => Allowed e) s₆ := by
    intro s₆ hcache hdisk₆ hlog₆
    have hbuf₆ : s₆.buf i = s.buf i := by
      rw [← hbuf]
      show s₆.machine.bcache.buf i = _
      rw [hcache]
      rfl
    rw [← hcache] at hfit₅
    rw [wp_bind, wp_getBuf, wp_setBuf, hbuf₆]
    have hat₆ : (s₆.buf i).At a := by
      rw [hbuf₆]
      exact hat
    apply hQ
    · exact hfit₅.change List.mem_cons_self hat₆ (b := { s.buf i with dirty := true }) hat
        ((hfit.busy i).mpr List.mem_cons_self) (hfit.valid i a hat)
        (List.mem_toFinset.mpr (mem_addLogged.mpr (Or.inl rfl))) (fun _ => rfl)
        (fun k' hne hk' => (Finset.mem_insert.mp hk').resolve_left hne)
    · show Ready l s₆.machine.log _
      rw [hlog₆]
      exact hready.add a
    · show s₆.machine.log.busy = true
      rw [hlog₆]
      exact hbusy
    · rw [addLogged_length]
      split <;> omega
    · rw [setBuf_buf]
      exact hat
    · exact hdisk₆.trans hdisk1
    · intro ha
      apply hfit.spare hat hwas
      intro hk
      rcases Finset.mem_insert.mp hk with rfl | hk
      · exact ha hinLog
      · exact hD _ hk hinLog
  rw [hready.count]
  by_cases hnew : logged.idxOf a = logged.length
  · rw [if_pos (by exact_mod_cast hnew), wp_bind, wp_setLog]
    apply hlast
    · rfl
    · rfl
    · rw [hlog, if_pos hnew]
  · rw [if_neg (by exact_mod_cast hnew)]
    apply hlast
    · rfl
    · rfl
    · rw [hlog, if_neg hnew, Int.add_zero]

theorem wp_update {u : Update} (h : Between l D logged s)
    (hD : ∀ k ∈ D, ¬ l.InLog k) (hle : (addLogged logged u.sector).length ≤ logSize)
    (hstops : Stops l logged u.sector s.machine.haveDisk1 Allowed)
    (hQ : ∀ s', Between l (insert u.sector D) (addLogged logged u.sector) s' →
      s'.machine.haveDisk1 = s.machine.haveDisk1 →
      (¬ l.InLog u.sector → (insert u.sector D).card < nbuf) → Q () s') :
    wp (update u) Q (fun e _ => Allowed e) s := by
  have hcard := List.toFinset_card_of_nodup h.nodup
  unfold update
  rw [wp_bind]
  apply wp_bufcacheRead (k := u.sector) h.fit
  · exact fun j hj => absurd hj List.not_mem_nil
  · -- there is room for one more sector
    intro hfull
    rw [addLogged_length] at hle
    unfold nbuf at hfull
    unfold logSize at hle
    by_cases ha : u.sector ∈ logged
    · rw [Finset.card_erase_of_mem (List.mem_toFinset.mpr ha), hcard] at hfull
      omega
    · rw [Finset.erase_eq_of_notMem (fun hm => ha (List.mem_toFinset.mp hm)), hcard] at hfull
      rw [if_pos (List.idxOf_eq_length ha)] at hle
      omega
  · exact fun hdisk _ => hstops.ide hdisk
  intro i s₁ _ _ h₁ hfit₁ hat₁ _
  rw [← addLogged_toFinset] at hfit₁
  have hmem : u.sector ∈ (addLogged logged u.sector).toFinset :=
    List.mem_toFinset.mpr (mem_addLogged.mpr (Or.inl rfl))
  rw [wp_bind]
  apply wp_modifyData hfit₁ List.mem_cons_self hat₁ hmem
  intro s₂ h₂ hfit₂ hat₂ _
  have hlog := h₂.log.trans h₁.log
  have hdisk1 := h₂.disk1.trans h₁.disk1
  rw [wp_bind]
  apply wp_logWrite hfit₂ (by rw [hlog]; exact h.ready) (by rw [hlog]; exact h.busy) h.nodup hat₂ hD
    (by rw [hdisk1]; exact hstops)
  intro s₃ hfit₃ hready₃ hbusy₃ hlt₃ hat₃ hdisk₃ hspare
  apply wp_bufcacheRelease (P := (addLogged logged u.sector).toFinset) hfit₃ List.not_mem_nil hat₃
    (fun _ => hmem) (fun _ _ hk => hk)
  intro s₄ h₄ hfit₄
  refine hQ s₄ ⟨hfit₄, ?_, ?_, addLogged_nodup h.nodup, hlt₃⟩ ?_ hspare
  · rw [h₄.log]
    exact hready₃
  · rw [h₄.log]
    exact hbusy₃
  · rw [h₄.disk1, hdisk₃, hdisk1]

def loggedOf (ks : List Lba) : List Lba := ks.foldl addLogged []

theorem loggedOf_append (ks : List Lba) (k : Lba) :
    loggedOf (ks ++ [k]) = addLogged (loggedOf ks) k := by
  unfold loggedOf
  rw [List.foldl_append]
  rfl

theorem loggedOf_sectors (us : List Update) (u : Update) :
    loggedOf ((us ++ [u]).map Update.sector) =
      addLogged (loggedOf (us.map Update.sector)) u.sector := by
  rw [List.map_append]
  exact loggedOf_append _ _

theorem loggedOf_spec (ks : List Lba) :
    (loggedOf ks).Nodup ∧ (loggedOf ks).toFinset = ks.toFinset := by
  induction ks using List.reverseRecOn with
  | nil => exact ⟨List.nodup_nil, rfl⟩
  | append_singleton ks k ih =>
    rw [loggedOf_append]
    refine ⟨addLogged_nodup ih.1, ?_⟩
    rw [addLogged_toFinset, ih.2, List.toFinset_append, Finset.union_comm]
    rfl

theorem length_loggedOf (ks : List Lba) : (loggedOf ks).length = ks.toFinset.card := by
  rw [← (loggedOf_spec ks).2, List.toFinset_card_of_nodup (loggedOf_spec ks).1]

def distinct (us : List Update) : Nat := (us.map Update.sector).toFinset.card

theorem length_loggedOf_le {us done : List Update} (rest : List Update) (h : us = done ++ rest) :
    (loggedOf (done.map Update.sector)).length ≤ distinct us := by
  rw [length_loggedOf]
  apply Finset.card_le_card
  rw [h, List.map_append, List.toFinset_append]
  exact Finset.subset_union_left

/-! ## 6. Commit -/

theorem wp_writeHead {T : Finset Lba}
    (hfit : Fit ∅ T [] s.machine.bcache) (hready : Ready l s.machine.log logged)
    (hT : T.card < nbuf) (hide : Allowed .ide)
    (hQ : ∀ s', Fit ∅ T [] s'.machine.bcache → s'.machine.log = s.machine.log → Q () s') :
    wp writeHead Q (fun e _ => Allowed e) s := by
  unfold writeHead
  rw [wp_bind, wp_getLog, wp_bind, hready.dev, hready.start]
  apply wp_bufcacheRead hfit
  · exact fun j hj => absurd hj List.not_mem_nil
  · intro hfull
    have hle := Finset.card_erase_le (a := l.logLba 0) (s := T)
    omega
  · exact fun _ _ => hide
  intro i s₁ _ _ h₁ hfit₁ hat₁ _
  rw [wp_bind]
  apply wp_modifyData hfit₁ List.mem_cons_self hat₁ (Finset.mem_insert_self _ _)
  intro s₂ h₂ hfit₂ hat₂ _
  rw [wp_bind]
  apply wp_bufcacheWrite hfit₂ List.mem_cons_self hat₂ (Finset.mem_insert_self _ _)
    (Finset.notMem_empty _) (fun _ _ => hide)
  intro s₃ h₃ hfit₃ hat₃ hclean
  apply wp_bufcacheRelease (P := T) hfit₃ List.not_mem_nil hat₃
    (fun hd => absurd (hclean.symm.trans hd) Bool.false_ne_true)
    (fun k' hne hk' => (Finset.mem_insert.mp hk').resolve_left hne)
  intro s₄ h₄ hfit₄
  exact hQ s₄ hfit₄ (h₄.log.trans (h₃.log.trans (h₂.log.trans h₁.log)))

theorem mem_drop {t : Nat} (ht : t < logged.length) {k : Lba} :
    k ∈ (logged.drop t).toFinset ↔ k = logged[t] ∨ k ∈ (logged.drop (t + 1)).toFinset := by
  rw [List.drop_eq_getElem_cons ht, List.toFinset_cons, Finset.mem_insert]

theorem wp_installOne {t : Nat} (ht : t < logged.length)
    (hfit : Fit ∅ (logged.drop t).toFinset [] s.machine.bcache)
    (hready : Ready l s.machine.log logged) (hlt : logged.length < l.nlog)
    (hlen : logged.length < nbuf) (hsleep : Allowed .sleeps) (hide : Allowed .ide)
    (hQ : ∀ s', Fit ∅ (logged.drop (t + 1)).toFinset [] s'.machine.bcache →
      s'.machine.log = s.machine.log → Q () s') :
    wp (installOne t) Q (fun e _ => Allowed e) s := by
  have hmem : logged[t] ∈ (logged.drop t).toFinset := (mem_drop ht).mpr (Or.inl rfl)
  have hcard : (logged.drop t).toFinset.card ≤ logged.length - t := by
    rw [← List.length_drop]
    exact List.toFinset_card_le _
  unfold installOne
  rw [wp_bind, wp_getLog, wp_bind, hready.dev, hready.start, l.logLba_word (by omega),
    hready.sector t ht]
  generalize l.logLba (t + 1) = block
  apply wp_bufcacheRead hfit
  · exact fun j hj => absurd hj List.not_mem_nil
  · intro hfull
    have hle := Finset.card_erase_le (a := block) (s := (logged.drop t).toFinset)
    omega
  · exact fun _ _ => hide
  intro lbuf s₁ _ _ h₁ hfit₁ hat₁ hdirty₁
  rw [wp_bind]
  apply wp_bufcacheRead (k := logged[t]) hfit₁
  · exact fun _ _ _ => hsleep
  · -- a sector that has no buffer is not one of those that are pinned
    intro hfull
    have hle : ((insert block (logged.drop t).toFinset).erase logged[t]).card ≤
        (logged.drop t).toFinset.card := by
      rw [Finset.card_erase_of_mem (Finset.mem_insert_of_mem hmem)]
      have hins := Finset.card_insert_le block (logged.drop t).toFinset
      omega
    omega
  · exact fun _ _ => hide
  intro dbuf s₂ hne₂ _ h₂ hfit₂ hat₂ _
  have hbuf₂ : dbuf ≠ lbuf := fun he => hne₂ (he ▸ List.mem_cons_self)
  rw [wp_bind, wp_getBuf, wp_bind]
  apply wp_modifyData hfit₂ List.mem_cons_self hat₂ (Finset.mem_insert_self _ _)
  intro s₃ h₃ hfit₃ hat₃ _
  rw [wp_bind]
  apply wp_bufcacheWrite hfit₃ List.mem_cons_self hat₃ (Finset.mem_insert_self _ _)
    (Finset.notMem_empty _) (fun _ _ => hide)
  intro s₄ h₄ hfit₄ hat₄ hclean
  have hlbuf : s₄.buf lbuf = s₁.buf lbuf := by
    rw [h₄.others _ hbuf₂.symm, h₃.others _ hbuf₂.symm, h₂.others _ hbuf₂.symm]
  have hswap : Fit ∅ (insert logged[t] (insert block (logged.drop t).toFinset)) [lbuf, dbuf]
      s₄.machine.bcache :=
    hfit₄.held fun j => by simp only [List.mem_cons, or_left_comm]
  rw [wp_bind]
  apply wp_bufcacheRelease (P := (logged.drop t).toFinset) hswap
    (fun hm => hbuf₂ (List.mem_singleton.mp hm).symm) (k := block)
  · rw [hlbuf]
    exact hat₁
  · rw [hlbuf]
    exact hdirty₁
  · intro k' hne hk'
    rcases Finset.mem_insert.mp hk' with rfl | hk'
    · exact hmem
    · exact (Finset.mem_insert.mp hk').resolve_left hne
  intro s₅ h₅ hfit₅
  have hdbuf : s₅.buf dbuf = s₄.buf dbuf := h₅.others _ hbuf₂
  apply wp_bufcacheRelease (P := (logged.drop (t + 1)).toFinset) hfit₅ List.not_mem_nil
    (k := logged[t])
  · rw [hdbuf]
    exact hat₄
  · rw [hdbuf]
    exact fun hd => absurd (hclean.symm.trans hd) Bool.false_ne_true
  · exact fun k' hne hk' => ((mem_drop ht).mp hk').resolve_left hne
  intro s₆ h₆ hfit₆
  refine hQ s₆ hfit₆ ?_
  rw [h₆.log, h₅.log, h₄.log, h₃.log, h₂.log, h₁.log]

theorem wp_commitTrans (h : Between l ∅ logged s)
    (hlen : logged.length < nbuf) (hsleep : Allowed .sleeps) (hide : Allowed .ide)
    (hQ : ∀ s', Fit ∅ ∅ [] s'.machine.bcache → Ready l s'.machine.log [] →
      s'.machine.log.busy = false → Q () s') :
    wp commitTrans Q (fun e _ => Allowed e) s := by
  have hcard : logged.toFinset.card < nbuf := by
    rw [List.toFinset_card_of_nodup h.nodup]
    exact hlen
  unfold commitTrans
  rw [wp_bind, wp_getLog, h.ready.count]
  by_cases hpos : (0 : Int) < logged.length
  · rw [if_pos hpos, wp_bind]
    apply wp_writeHead h.fit h.ready hcard hide
    intro s₁ hfit₁ hlog₁
    unfold installTrans
    rw [wp_bind, wp_bind, wp_getLog, hlog₁, h.ready.count, Int.toNat_natCast]
    -- the sectors are installed one after the other
    have hround : ∀ t s', 0 ≤ t → t < 0 + logged.length →
        (Fit ∅ (logged.drop t).toFinset [] s'.machine.bcache ∧ s'.machine.log = s.machine.log) →
        wp (installOne t) (fun _ s'' => Fit ∅ (logged.drop (t + 1)).toFinset []
          s''.machine.bcache ∧ s''.machine.log = s.machine.log) (fun e _ => Allowed e) s' := by
      rintro t s' _ ht ⟨hfit, hlog⟩
      apply wp_installOne (by omega) hfit (by rw [hlog]; exact h.ready) h.length_lt hlen hsleep hide
      exact fun s'' hfit'' hlog'' => ⟨hfit'', hlog''.trans hlog⟩
    have hloop : wp (forUp installOne 0 logged.length) (fun _ s' =>
        Fit ∅ (logged.drop (0 + logged.length)).toFinset [] s'.machine.bcache ∧
          s'.machine.log = s.machine.log) (fun e _ => Allowed e) s₁ :=
      wp_forUp (I := fun t (s' : System) => Fit ∅ (logged.drop t).toFinset [] s'.machine.bcache ∧
        s'.machine.log = s.machine.log) logged.length 0 ⟨hfit₁, hlog₁⟩ hround
    apply wp_mono hloop _ fun _ _ he => he
    rintro _ s₂ ⟨hfit₂, hlog₂⟩
    rw [Nat.zero_add, List.drop_length] at hfit₂
    unfold clearCount
    rw [wp_bind, wp_setLog, wp_bind]
    have hready : Ready l { s₂.machine.log with lh := { s₂.machine.log.lh with n := 0 } } [] := by
      rw [hlog₂]
      exact ⟨h.ready.start, h.ready.size, h.ready.dev, rfl,
        fun j hj => absurd hj (Nat.not_lt_zero j)⟩
    refine wp_writeHead (T := ∅) ?_ (show Ready l _ [] from hready) (by decide : 0 < nbuf) hide ?_
    · exact hfit₂
    intro s₃ hfit₃ hlog₃
    rw [wp_setLog]
    refine hQ _ hfit₃ ?_ rfl
    rw [hlog₃]
    exact ⟨hready.start, hready.size, hready.dev, hready.count, hready.sector⟩
  · have hnil : logged = [] := List.eq_nil_of_length_eq_zero (by omega)
    subst hnil
    rw [if_neg hpos, wp_setLog]
    exact hQ _ h.fit ⟨h.ready.start, h.ready.size, h.ready.dev, h.ready.count, h.ready.sector⟩ rfl

/-! ## 7. Transactions -/

/-- No transaction runs and no buffer is pinned.  The list has all buffers, no sector has two, and
what is cached is valid: so it is after `bufcache_init`, and the functions of the cache keep it so. -/
structure Settled (l : Layout) (s : System) : Prop where
  order : ∀ i, i ∈ s.machine.bcache.order
  unique : ∀ i j k, (s.buf i).At k → (s.buf j).At k → i = j
  valid : ∀ i k, (s.buf i).At k → (s.buf i).valid = true
  idle : ∀ i, (s.buf i).idle = true
  ready : Ready l s.machine.log []
  free : s.machine.log.busy = false

theorem Settled.fit (h : Settled l s) : Fit ∅ ∅ [] s.machine.bcache where
  order := h.order
  unique := h.unique
  valid := h.valid
  pinned i hi := absurd ((h.idle i).symm.trans hi) (by decide)
  busy i := by
    have hbusy : (s.machine.bcache.buf i).busy = false := (idle_flags (h.idle i)).1
    exact iff_of_false (by rw [hbusy]; decide) List.not_mem_nil
  dirty k hk := absurd hk (Finset.notMem_empty k)

theorem settled_of_fit (hfit : Fit ∅ ∅ [] s.machine.bcache) (hready : Ready l s.machine.log [])
    (hfree : s.machine.log.busy = false) : Settled l s where
  order := hfit.order
  unique := hfit.unique
  valid := hfit.valid
  idle i := by
    by_contra hi
    obtain ⟨k, hk, _⟩ := hfit.pinned i (Bool.eq_false_of_not_eq_true hi)
    exact Finset.notMem_empty k hk
  ready := hready
  free := hfree

theorem wp_beginTrans (h : Settled l s)
    (hQ : ∀ s', Between l ∅ [] s' → s'.machine.haveDisk1 = s.machine.haveDisk1 → Q () s') :
    wp beginTrans Q (fun e _ => Allowed e) s := by
  unfold beginTrans
  rw [wp_bind, wp_getLog, if_neg (by rw [h.free]; decide), wp_setLog]
  exact hQ _ ⟨h.fit, ⟨h.ready.start, h.ready.size, h.ready.dev, h.ready.count, h.ready.sector⟩, rfl,
    List.nodup_nil, l.nlog_pos⟩ rfl

variable {us : List Update}

theorem wp_transaction (hs : Settled l s) (hus : distinct us ≤ logSize)
    (hroom : distinct us < nbuf ∨ l.nlog ≤ nbuf) :
    wp (transaction us) (fun _ s' => Settled l s') (fun e _ => e ≠ .noBuffers) s := by
  unfold transaction
  rw [wp_bind]
  apply wp_beginTrans hs
  intro s₁ h₁ _
  rw [wp_bind]
  have hupdates : wp (us.forM update)
      (fun _ s' => Between l ∅ (loggedOf (us.map Update.sector)) s')
      (fun e _ => e ≠ .noBuffers) s₁ := by
    apply wp_forM (I := fun done s' => Between l ∅ (loggedOf (done.map Update.sector)) s') us h₁
    intro done u rest s₂ hsplit h₂
    have hnext := loggedOf_sectors done u
    have hle : (loggedOf ((done ++ [u]).map Update.sector)).length ≤ distinct us :=
      length_loggedOf_le rest (by rw [hsplit, List.append_assoc]; rfl)
    rw [hnext] at hle ⊢
    apply wp_update h₂ (fun k hk => absurd hk (Finset.notMem_empty k)) (hle.trans hus)
    · refine ⟨fun _ => by decide, fun _ => by decide, fun ha hn hlog => ?_, fun _ => by decide⟩
      rw [addLogged_length, if_pos (List.idxOf_eq_length ha)] at hle
      omega
    · exact fun s' h' _ _ => ⟨h'.fit.mono (Finset.empty_subset _) (Finset.Subset.refl _), h'.ready,
        h'.busy, h'.nodup, h'.length_lt⟩
  apply wp_mono hupdates _ fun _ _ h => h
  intro _ s₂ h₂
  have hlen : (loggedOf (us.map Update.sector)).length < nbuf := by
    have hle : (loggedOf (us.map Update.sector)).length ≤ distinct us :=
      length_loggedOf_le [] (List.append_nil us).symm
    have hlt := h₂.length_lt
    omega
  apply wp_commitTrans h₂ hlen (by decide) (by decide)
  exact fun s' hfit hready hfree => settled_of_fit hfit hready hfree

theorem wp_transaction_exhausts (hs : Settled l s) (hdisk : s.machine.haveDisk1 = true)
    (houtside : ∀ u ∈ us, ¬ l.InLog u.sector) (hmany : nbuf ≤ distinct us) (hlog : nbuf < l.nlog) :
    wp (transaction us) (fun _ _ => False) (fun e _ => e = .noBuffers) s := by
  unfold transaction
  rw [wp_bind]
  apply wp_beginTrans hs
  intro s₁ h₁ hdisk₁
  rw [wp_bind]
  have hupdates : wp (us.forM update)
      (fun _ s' => (Between l (loggedOf (us.map Update.sector)).toFinset
        (loggedOf (us.map Update.sector)) s' ∧ s'.machine.haveDisk1 = true) ∧
        (loggedOf (us.map Update.sector)).length < nbuf)
      (fun e _ => e = .noBuffers) s₁ := by
    apply wp_forM (I := fun done s' => (Between l (loggedOf (done.map Update.sector)).toFinset
      (loggedOf (done.map Update.sector)) s' ∧ s'.machine.haveDisk1 = true) ∧
      (loggedOf (done.map Update.sector)).length < nbuf) us
      ⟨⟨h₁, hdisk₁.trans hdisk⟩, by decide⟩
    rintro done u rest s₂ hsplit ⟨⟨h₂, hdisk₂⟩, hlen⟩
    have hnext := loggedOf_sectors done u
    have hu : ¬ l.InLog u.sector := houtside u (by rw [hsplit]; simp)
    have hD : ∀ k ∈ (loggedOf (done.map Update.sector)).toFinset, ¬ l.InLog k := by
      intro k hk
      rw [(loggedOf_spec _).2, List.mem_toFinset] at hk
      obtain ⟨u', hu', rfl⟩ := List.mem_map.mp hk
      exact houtside u' (by rw [hsplit]; exact List.mem_append_left _ hu')
    have hle : (addLogged (loggedOf (done.map Update.sector)) u.sector).length ≤ logSize := by
      rw [addLogged_length]
      unfold nbuf at hlen
      unfold logSize
      split <;> omega
    rw [hnext]
    apply wp_update h₂ hD hle
    · refine ⟨fun h => absurd h hu, fun h => ?_, fun _ _ _ => rfl, fun h => ?_⟩
      · unfold nbuf at hlen hlog
        unfold logSize at h
        omega
      · rw [hdisk₂] at h
        contradiction
    · intro s' h' hdisk' hspare
      have hcard := hspare hu
      rw [← addLogged_toFinset] at h' hcard
      rw [List.toFinset_card_of_nodup h'.nodup] at hcard
      exact ⟨⟨h', hdisk'.trans hdisk₂⟩, hcard⟩
  apply wp_mono hupdates _ fun _ _ h => h
  rintro _ s₂ ⟨_, hlen⟩
  rw [length_loggedOf] at hlen
  exact absurd hmany (Nat.not_le_of_lt hlen)

def Exhausts (us : List Update) (s : System) : Prop :=
  ∃ s', transaction us s = .error .noBuffers s'

theorem exhausts_of_many (hs : Settled l s) (hdisk : s.machine.haveDisk1 = true)
    (houtside : ∀ u ∈ us, ¬ l.InLog u.sector) (hmany : nbuf ≤ distinct us) (hlog : nbuf < l.nlog) :
    Exhausts us s := by
  have hwp := wp_transaction_exhausts hs hdisk houtside hmany hlog
  unfold wp at hwp
  cases hrun : transaction us s with
  | ok _ s' =>
    rw [hrun] at hwp
    exact hwp.elim
  | error e s' =>
    rw [hrun] at hwp
    obtain rfl : e = .noBuffers := hwp
    exact ⟨s', hrun⟩

/-- **Buffers for a transaction.**  A transaction on at most `LOGSIZE` sectors that starts with no
buffer pinned finds a buffer every time if it has fewer sectors than there are buffers, or if the
log is full before; outside the log, on a disk that is there, it finds one exactly then. -/
theorem no_buffers_iff (hs : Settled l s) (us : List Update) (hus : distinct us ≤ logSize) :
    (distinct us < nbuf ∨ l.nlog ≤ nbuf → ¬ Exhausts us s) ∧
      (s.machine.haveDisk1 = true → (∀ u ∈ us, ¬ l.InLog u.sector) →
        (¬ Exhausts us s ↔ distinct us < nbuf ∨ l.nlog ≤ nbuf)) := by
  have henough : distinct us < nbuf ∨ l.nlog ≤ nbuf → ¬ Exhausts us s := by
    rintro hroom ⟨s', hstop⟩
    have hwp := wp_transaction hs hus hroom
    unfold wp at hwp
    rw [hstop] at hwp
    exact hwp rfl
  refine ⟨henough, fun hdisk houtside => ⟨fun hnever => ?_, henough⟩⟩
  by_contra hfew
  rw [not_or, Nat.not_lt, Nat.not_le] at hfew
  exact hnever (exhausts_of_many hs hdisk houtside hfew.1 hfew.2)

/-- A transaction on as many sectors as there are buffers, outside a log with room for them all, stops
because no buffer is left, and never gets to its end in the model with crashes either. -/
theorem full_transaction_halts (hs : Settled l s) (hdisk : s.machine.haveDisk1 = true)
    (houtside : ∀ u ∈ us, ¬ l.InLog u.sector) (hmany : nbuf ≤ distinct us) (hlog : nbuf < l.nlog) :
    Exhausts us s ∧ (Fs.transaction us s.disk s.machine).2 = none := by
  obtain ⟨s', hrun⟩ := exhausts_of_many hs hdisk houtside hmany hlog
  refine ⟨⟨s', hrun⟩, ?_⟩
  rw [(names_transaction us s.disk s.machine).2, hrun]

end Updates

def roomyLog : Layout := ⟨30, 12, by decide, by decide, by decide⟩

def fresh : System where
  disk := fun _ _ => 0
  machine := ⟨true, bufcacheInit, ⟨18, 12, false, rootDev, ⟨0, fun _ => 0⟩⟩⟩

theorem settled_fresh : Settled roomyLog fresh where
  order := by decide
  unique i _ _ h := absurd h.1 (show ¬ (-1 : BitVec 32) = rootDev by decide)
  valid i _ h := absurd h.1 (show ¬ (-1 : BitVec 32) = rootDev by decide)
  idle _ := rfl
  ready := ⟨by decide, rfl, rfl, rfl, fun j hj => absurd hj (Nat.not_lt_zero j)⟩
  free := rfl

def updates (n : Nat) : List Update :=
  (List.range n).map fun k => ⟨⟨(k + 2) % 2 ^ 28, Nat.mod_lt _ (by decide)⟩, id⟩

theorem no_buffers_iff_nine : distinct (updates 9) = 9 ∧ ¬ Exhausts (updates 9) fresh :=
  ⟨by decide +kernel, (no_buffers_iff settled_fresh (updates 9) (by decide +kernel)).1
    (Or.inl (by decide +kernel))⟩

/-- Ten sectors, as many as the log admits, outside the log. -/
theorem ten_exhaust : Settled roomyLog fresh ∧ distinct (updates 10) = logSize ∧
    (∀ u ∈ updates 10, ¬ roomyLog.InLog u.sector) ∧ Exhausts (updates 10) fresh := by
  refine ⟨settled_fresh, by decide +kernel, by decide +kernel, ?_⟩
  have hstop : (match transaction (updates 10) fresh with
      | .ok _ _ => none
      | .error e _ => some e) = some Stop.noBuffers := by decide +kernel
  unfold Exhausts
  cases hrun : transaction (updates 10) fresh with
  | ok _ s' =>
    rw [hrun] at hstop
    contradiction
  | error e s' =>
    rw [hrun] at hstop
    obtain rfl := Option.some.inj hstop
    exact ⟨s', rfl⟩

theorem full_transaction_halts_ten :
    (∀ u ∈ updates 10, ¬ roomyLog.InLog u.sector) ∧
      Exhausts (updates 10) fresh ∧ (Fs.transaction (updates 10) fresh.disk fresh.machine).2 = none := by
  have houtside : ∀ u ∈ updates 10, ¬ roomyLog.InLog u.sector := by decide +kernel
  exact ⟨houtside, full_transaction_halts settled_fresh rfl houtside (by decide +kernel)
    (by decide)⟩

end MCertiKOS.Fs.Supply
