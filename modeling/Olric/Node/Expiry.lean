import Olric.Lib.Safe
import Olric.Node.Putting

namespace Olric

open Program

/-- A clock that reads `now`. -/
def Cmd.Reads (now : Int64) : (c : Cmd) → c.Reply → Prop
  | .now, reply => reply = now
  | _, _ => True

/-- What a command does while the clock reads `now`. -/
def Node.execAt (now : Int64) (tid : Tid) (s : Node) (c : Cmd) (reply : c.Reply) (s' : Node) : Prop :=
  s.exec tid c reply s' ∧ c.Reads now reply

/-- Every entry that is put has the TTL of the timeout. -/
def Cmd.Stamped (now timeout : Int64) (c : Cmd) : Prop := ∀ r hkey v, c = .put r hkey v → v.ttl = getTTL now timeout

section Stamped

variable {cfg : Config} {now timeout : Int64} {tid : Tid} {hkey : UInt64} {name key value : Bytes} {s : Node}

theorem only_stamped {α : Type} {p : Prog α} (only : p.Only fun c => ∀ r hkey v, c ≠ .put r hkey v) :
    p.Safe (Node.execAt now tid) (fun _ c => c.Stamped now timeout) s fun _ _ => True :=
  Safe.only (fun _ => True) (fun _ _ other _ r hkey v same => absurd same (other r hkey v))
    (fun _ _ _ _ _ _ _ => trivial)
    only trivial

theorem getDMap_puts_nothing (p : Place) : (cfg.getDMap p name).Only fun c => ∀ r hkey v, c ≠ .put r hkey v :=
  Config.getDMap_only nofun nofun nofun nofun nofun nofun nofun nofun

theorem ttlOf_stamped (nonzero : timeout ≠ 0) : (Config.ttlOf timeout).Safe (Node.execAt now tid)
    (fun _ c => c.Stamped now timeout) s fun ttl _ => ttl = getTTL now timeout := by
  unfold Config.ttlOf
  rw [if_neg nonzero]
  refine ⟨nofun, fun reply mid read => ?_⟩
  cases read.2
  rfl

theorem putKeyVal_stamped (nonzero : timeout ≠ 0) :
    (cfg.putKeyVal hkey name key value timeout).Safe (Node.execAt now tid)
    (fun _ c => c.Stamped now timeout) s fun _ _ => True := by
  refine (only_stamped (getDMap_puts_nothing _)).bind fun dm _ _ => ?_
  cases dm with
  | none => exact trivial
  | some r =>
    refine ⟨nofun, fun _ _ _ => ?_⟩
    dsimp only [ret_bind]
    refine Safe.bind (Q := fun _ _ => True) ?_ fun _ _ _ => ⟨nofun, fun _ _ _ => trivial⟩
    have backs : (cfg.backUp hkey name key value timeout).Only fun c => ∀ r hkey v, c ≠ .put r hkey v :=
      Config.backUp_only nofun nofun nofun nofun
    refine (only_stamped backs).bind fun ok _ _ => ?_
    cases ok with
    | false => exact trivial
    | true =>
      refine (ttlOf_stamped nonzero).bind fun ttl _ same => ⟨?_, fun err _ _ => ?_⟩
      · rintro r' hkey' v ⟨⟩
        exact same
      · cases err with
        | some _ => exact trivial
        | none =>
          refine (only_stamped (Config.oplog_only nofun)).bind fun _ _ _ => ?_
          exact (only_stamped (Config.purgeOldVersions_only nofun nofun)).bind fun _ _ _ => trivial

end Stamped

/-- Milliseconds of a time that is not negative. -/
theorem toInt_millis {a : Int64} (nonneg : 0 ≤ a.toInt) : (a / 1000000).toInt = a.toInt / 1000000 := by
  have regular : a ≠ Int64.minValue := by
    rintro rfl
    exact absurd nonneg (by decide)
  rw [Int64.toInt_div_of_ne_left _ _ regular, Int.tdiv_eq_ediv_of_nonneg nonneg]
  rfl

theorem toInt_add_exact {a b : Int64} (low : 0 ≤ a.toInt + b.toInt) (high : a.toInt + b.toInt < 2 ^ 63) :
    (a + b).toInt = a.toInt + b.toInt := by
  rw [Int64.toInt_add, Int.bmod_eq_of_le] <;> omega

/-- The TTL is the time of the expiry in milliseconds if the sum does not overflow. -/
theorem toInt_getTTL {now timeout : Int64} (low : 0 ≤ now.toInt + timeout.toInt)
    (high : now.toInt + timeout.toInt < 2 ^ 63) :
    (getTTL now timeout).toInt = (now.toInt + timeout.toInt) / 1000000 := by
  have sum := toInt_add_exact (show 0 ≤ timeout.toInt + now.toInt by omega) (by omega)
  rw [getTTL, toInt_millis (by omega), sum, Int.add_comm]

theorem isKeyExpired_iff {now ttl : Int64} (nonneg : 0 ≤ now.toInt) (nonzero : ttl ≠ 0) :
    isKeyExpired now ttl = true ↔ ttl.toInt ≤ now.toInt / 1000000 := by
  rw [isKeyExpired, if_neg nonzero, decide_eq_true_iff, ge_iff_le, Int64.le_iff_toInt_le, toInt_millis nonneg]

/-- A node with an empty dmap. -/
def oneDMap (str : Storage) : Node :=
  { emptyNode with
    partition := fun _ => ⟨1, Finmap.singleton [100] 0, none⟩
    dmaps := fun _ => some ⟨str, none, none, none⟩ }

/-- The entry that is put into the dmap. -/
theorem oneDMap_stores (str : Storage) (now : Int64) {timeout : Int64} (nonzero : timeout ≠ 0) : ∃ s' next,
    (soloConfig.putKeyVal 7 [100] [107] [1] timeout).Reaches (Node.execAt now 0) (oneDMap str)
      (.call (.put 0 7 ⟨[107], getTTL now timeout, [1]⟩) next) s' := by
  have found : (Finmap.singleton [100] 0 : Finmap fun _ : Bytes => Ref).lookup [100] = some 0 :=
    Finmap.lookup_singleton_eq
  have loaded : Node.execAt now 0 (oneDMap str) (.load (soloConfig.place false 7) [100]) (some 0) (oneDMap str) :=
    ⟨⟨found.symm, rfl⟩, trivial⟩
  have locked : Node.execAt now 0 (oneDMap str) (.lock 0) ()
      ((oneDMap str).setDMap 0 ⟨str, some 0, none, none⟩) := ⟨⟨_, rfl, rfl, rfl⟩, trivial⟩
  have read (s : Node) : Node.execAt now 0 s .now now s := ⟨rfl, rfl⟩
  have timed : Config.ttlOf timeout = .call .now fun now => .ret (getTTL now timeout) := if_neg nonzero
  unfold Config.putKeyVal
  rw [timed]
  exact ⟨_, _, .step (some 0) loaded (.step () locked (.step now (read _) .refl))⟩

/-- A key that is put with a timeout expires at the exact time, with a sum that does not wrap and a TTL
that is not the one for no expiry, exactly if the sum is a millisecond at least and fits into 63 bits. -/
theorem stored_expires_iff {cfg : Config} {tid : Tid} {hkey : UInt64} {name key value : Bytes} {now timeout : Int64}
    {s s' : Node} {r : Ref} {v : VData} {next : Option StorageError → Prog Response} (started : 0 ≤ now)
    (positive : 0 < timeout) (stored : (cfg.putKeyVal hkey name key value timeout).Reaches (Node.execAt now tid) s
      (.call (.put r hkey v) next) s') :
    ((∀ later, now ≤ later → (isKeyExpired later v.ttl = true ↔
        (now.toInt + timeout.toInt) / 10 ^ 6 ≤ later.toInt / 10 ^ 6)) ∧
      (timeout + now).toInt = timeout.toInt + now.toInt ∧ v.ttl ≠ 0) ↔
      10 ^ 6 ≤ now.toInt + timeout.toInt ∧ now.toInt + timeout.toInt < 2 ^ 63 := by
  have nonzero : timeout ≠ 0 := by
    rintro rfl
    exact absurd positive (by decide)
  have nowNonneg : 0 ≤ now.toInt := by simpa using Int64.le_iff_toInt_le.1 started
  have timeoutPos : 0 < timeout.toInt := by simpa using Int64.lt_iff_toInt_lt.1 positive
  have ttl : v.ttl = getTTL now timeout := (putKeyVal_stamped nonzero).reaches stored r hkey v rfl
  rw [ttl]
  constructor
  · rintro ⟨_, exact_, sentinel⟩
    have fits := (timeout + now).toInt_lt
    refine ⟨?_, by omega⟩
    by_contra early
    refine sentinel (Int64.toInt_inj.1 ?_)
    rw [toInt_getTTL (by omega) (by omega), Int64.toInt_zero]
    omega
  · rintro ⟨late, fits⟩
    have millis : (getTTL now timeout).toInt = (now.toInt + timeout.toInt) / 1000000 := toInt_getTTL (by omega) fits
    have sentinel : getTTL now timeout ≠ 0 := by
      intro zero
      rw [zero, Int64.toInt_zero] at millis
      omega
    refine ⟨fun later after => ?_, toInt_add_exact (by omega) (by omega), sentinel⟩
    have laterNonneg : now.toInt ≤ later.toInt := Int64.le_iff_toInt_le.1 after
    rw [isKeyExpired_iff (by omega) sentinel, millis]
    norm_num

/-- Five milliseconds after the start of the clock. -/
theorem five_millis_expire : ∃ str s' v next, Storage.new true 0 = .ok str ∧
    (soloConfig.putKeyVal 7 [100] [107] [1] 5000000).Reaches (Node.execAt 0 0) (oneDMap str)
      (.call (.put 0 7 v) next) s' ∧
      (∀ later, 0 ≤ later → (isKeyExpired later v.ttl = true ↔
        ((0 : Int64).toInt + (5000000 : Int64).toInt) / 10 ^ 6 ≤ later.toInt / 10 ^ 6)) ∧
      ((5000000 : Int64) + 0).toInt = (5000000 : Int64).toInt + (0 : Int64).toInt ∧ v.ttl ≠ 0 := by
  obtain ⟨str, made⟩ : ∃ str, Storage.new true 0 = .ok str := ⟨_, rfl⟩
  obtain ⟨s', next, stored⟩ := oneDMap_stores str 0 (show (5000000 : Int64) ≠ 0 by decide)
  exact ⟨str, s', _, next, made, stored, (stored_expires_iff (by decide) (by decide) stored).2 (by decide)⟩

/-- A timeout of a nanosecond at the start of the clock never ends. The largest timeout, an hour later,
is over at once. -/
theorem timeouts_missed : ∃ str, Storage.new true 0 = .ok str ∧
    (∃ s' v next, (soloConfig.putKeyVal 7 [100] [107] [1] 1).Reaches (Node.execAt 0 0) (oneDMap str)
      (.call (.put 0 7 v) next) s' ∧ ∀ later, isKeyExpired later v.ttl = false) ∧
    ∃ s' v next, (soloConfig.putKeyVal 7 [100] [107] [1] Int64.maxValue).Reaches (Node.execAt 3600000000000 0)
      (oneDMap str)
      (.call (.put 0 7 v) next) s' ∧ isKeyExpired 3600000000000 v.ttl = true := by
  obtain ⟨str, made⟩ : ∃ str, Storage.new true 0 = .ok str := ⟨_, rfl⟩
  obtain ⟨s', next, stored⟩ := oneDMap_stores str 0 (show (1 : Int64) ≠ 0 by decide)
  obtain ⟨t', last, kept⟩ := oneDMap_stores str 3600000000000 (show Int64.maxValue ≠ 0 by decide)
  exact ⟨str, made, ⟨s', _, next, stored, fun later => rfl⟩, t', _, last, kept, by decide⟩

end Olric
