import Olric.Node.Maintenance

namespace Olric

open Program

section Issued

/-! The commands that the common parts of the handlers issue: a part is fine if each of them is. -/

variable {ok : Cmd → Prop} {cfg : Config} {p : Place} {name key value : Bytes} {hkey : UInt64} {r : Ref}
  {timeout : Int64}

theorem withLock_only {α : Type} {body : Prog α} (lock : ok (.lock r)) (unlock : ok (.unlock r))
    (inner : body.Only ok) : (withLock r body).Only ok := by
  refine .call lock fun _ => ?_
  dsimp only [ret_bind]
  exact inner.bind fun _ => .call unlock fun _ => .ret _

theorem lockerLock_only (enter : ok (.lockerEnter r key)) (acquire : ∀ i, ok (.lockerAcquire r i))
    (dec : ∀ i, ok (.lockerDec r i)) : (lockerLock r key).Only ok :=
  .call enter fun i => .call (acquire i) fun _ => .call (dec i) fun _ => .ret _

theorem grantLock_only (enter : ok (.lockerEnter r key)) (acquire : ∀ i, ok (.lockerAcquire r i))
    (dec : ∀ i, ok (.lockerDec r i)) (go : ok (.go (.waitLockForTimeout r key timeout))) :
    (grantLock r key timeout).Only ok :=
  (lockerLock_only enter acquire dec).bind fun _ => .call go fun _ => .ret _

theorem releaseLock_only (unlock : ok (.lockerUnlock r key)) : (releaseLock r key).Only ok := by
  refine .call unlock fun released => ?_
  cases released <;> exact .ret _

namespace Config

theorem oplog_only {op : LogOp} (log : ok (.log r hkey op)) : (cfg.oplog r hkey op).Only ok := by
  unfold oplog
  split
  · exact .call log fun _ => .ret _
  · exact .ret _

theorem ttlOf_only (now : ok .now) : (ttlOf timeout).Only ok := by
  unfold ttlOf
  split
  · exact .ret _
  · exact .call now fun _ => .ret _

theorem putBackupOwners_only (members : ok .numMembers) (owners : ok (.owners (cfg.place true hkey))) :
    (cfg.putBackupOwners hkey).Only ok :=
  .call members fun _ => .call owners fun _ => .ret _

theorem putKeyValBackup_only (members : ok .numMembers) (owners : ok (.owners (cfg.place true hkey)))
    (asks : ∀ hosts, ok (.requestAll hosts (putBackupRequest name key value timeout))) :
    (cfg.putKeyValBackup hkey name key value timeout).Only ok := by
  refine (putBackupOwners_only members owners).bind fun hosts => ?_
  split
  · exact .ret _
  · exact .call (asks hosts) fun _ => .ret _

theorem backUp_only (members : ok .numMembers) (owners : ok (.owners (cfg.place true hkey)))
    (asks : ∀ hosts, ok (.requestAll hosts (putBackupRequest name key value timeout)))
    (go : ok (.go (.putKeyValBackup hkey name key value timeout))) :
    (cfg.backUp hkey name key value timeout).Only ok := by
  unfold backUp
  split
  · exact .ret _
  · split
    · exact .call go fun _ => .ret _
    · exact putKeyValBackup_only members owners asks

theorem purgeOldVersions_only (owners : ok (.owners (cfg.place false hkey)))
    (asks : ∀ host, ok (.request host (.deletePrev name key))) : (cfg.purgeOldVersions hkey name key).Only ok := by
  refine .call owners fun hosts => Only.forEach fun owner _ => ?_
  split
  · exact .ret _
  · exact .call (asks owner) fun _ => .ret _

theorem askInTurn_only {req : Request} {hosts : List Host} (asks : ∀ host ∈ hosts, ok (.request host req)) :
    (askInTurn req hosts).Only ok := by
  induction hosts with
  | nil => exact .ret _
  | cons host hosts ih =>
    refine .call (asks host List.mem_cons_self) fun answer => ?_
    cases answer with
    | keyNotFound => exact ih fun other mem => asks other (List.mem_cons_of_mem _ mem)
    | ok | noSuchLock | failed => exact .ret _

theorem getFromOthers_only (owners : ∀ p, ok (.owners p)) (prev : ∀ host, ok (.request host (.getPrev name key)))
    (backup : ∀ host, ok (.request host (.getBackup name key))) : (cfg.getFromOthers hkey name key).Only ok := by
  refine .call (owners _) fun hosts => (askInTurn_only fun host _ => prev host).bind fun answer => ?_
  cases answer with
  | keyNotFound => exact .call (owners _) fun _ => askInTurn_only fun host _ => backup host
  | ok | noSuchLock | failed => exact .ret _

theorem answerEntry_only {entry : VData} (now : ok .now) : (answerEntry entry).Only ok := .call now fun _ => .ret _

theorem answerGet_only (get : ok (.get r hkey)) (now : ok .now) : (answerGet r hkey).Only ok := by
  refine .call get fun found => ?_
  rcases found with (_ | _ | _ | _ | _) | entry
  all_goals first | exact .ret _ | exact answerEntry_only now

theorem requestEach_only {req : Request} {hosts : List Host} (asks : ∀ host ∈ hosts, ok (.request host req)) :
    (requestEach req hosts).Only ok := by
  induction hosts with
  | nil => exact .ret _
  | cons host hosts ih =>
    refine .call (asks host List.mem_cons_self) fun answer => ?_
    cases answer with
    | ok => exact ih fun other mem => asks other (List.mem_cons_of_mem _ mem)
    | keyNotFound | noSuchLock | failed => exact .ret _

theorem deleteBackups_only (owners : ok (.owners (cfg.place true hkey)))
    (asks : ∀ hosts, ok (.requestAll hosts (.deleteBackup name key))) :
    (cfg.deleteBackups hkey name key).Only ok := by
  unfold deleteBackups
  split
  · exact .ret _
  · exact .call owners fun hosts => .call (asks hosts) fun _ => .ret _

theorem findLockAmong_only {hosts : List Host} (asks : ∀ host ∈ hosts, ok (.request host (.findLock name key))) :
    (cfg.findLockAmong name key hosts).Only ok := by
  induction hosts with
  | nil => exact .ret _
  | cons host hosts ih =>
    have rest := ih fun other mem => asks other (List.mem_cons_of_mem _ mem)
    unfold findLockAmong
    split
    · exact rest
    · refine .call (asks host List.mem_cons_self) fun answer => ?_
      cases answer with
      | noSuchLock => exact rest
      | ok | keyNotFound | failed => exact .ret _

theorem findLockKey_only (owners : ok (.owners (cfg.place false hkey)))
    (asks : ∀ host, ok (.request host (.findLock name key))) : (cfg.findLockKey hkey name key).Only ok := by
  refine .call owners fun hosts => ?_
  dsimp only [ret_bind]
  split
  · exact .ret _
  · exact findLockAmong_only fun host _ => asks host

theorem snapshotCall_only {call : Prog Bool} (only : call.Only ok) : (cfg.snapshotCall call).Only ok := by
  unfold snapshotCall
  split
  · exact only
  · exact .ret _

theorem newOwnerLocker_only (locker : ok (.setLocker r)) : (newOwnerLocker p r).Only ok := by
  unfold newOwnerLocker
  split
  · exact .ret _
  · exact .call locker fun _ => .ret _

theorem mergeTableInto_only {merr : Option StorageError} {entries : List (UInt64 × VData)}
    (check : ∀ hkey, ok (.check r hkey))
    (put : ∀ hkey entry, ok (.put r hkey entry)) : (mergeTableInto r merr entries).Only ok := by
  induction entries generalizing merr with
  | nil => exact .ret _
  | cons e entries ih =>
    refine .call (check e.1) fun there => ?_
    cases there with
    | true => exact ih
    | false =>
      refine .call (put e.1 e.2) fun err => ?_
      cases err with
      | some _ => exact .ret _
      | none => exact ih

theorem mergeInto_only {merr : Option StorageError} {tables : List (List (UInt64 × VData))}
    (check : ∀ hkey, ok (.check r hkey))
    (put : ∀ hkey entry, ok (.put r hkey entry)) : (mergeInto r merr tables).Only ok := by
  induction tables generalizing merr with
  | nil => exact .ret _
  | cons entries tables ih => exact (mergeTableInto_only check put).bind fun _ => ih

theorem getDMap_only (load : ok (.load p name)) (lock : ok (.lockPartition p)) (unlock : ok (.unlockPartition p))
    (make : ok .newStorage) (locker : ∀ r, ok (.setLocker r)) (register : ∀ r, ok (.register p name r))
    (store : ∀ r, ok (.store p name r)) (count : ok (.addCount p 1)) : (cfg.getDMap p name).Only ok := by
  have fresh : (cfg.createFresh p name).Only ok := by
    refine .call make fun found => ?_
    cases found with
    | none => exact .ret _
    | some r =>
      have registered : (act (.register p name r)).Only ok := .call (register r) fun _ => .ret _
      refine .call (locker r) fun _ => (snapshotCall_only registered).bind fun done => ?_
      cases done with
      | false => exact .ret _
      | true => exact .call (store r) fun _ => .call count fun _ => .ret _
  refine .call load fun found => ?_
  cases found with
  | some r => exact .ret _
  | none =>
    refine .call lock fun _ => .call load fun found => ?_
    cases found with
    | some r => exact .call unlock fun _ => .ret _
    | none => exact fresh.bind fun _ => .call unlock fun _ => .ret _

end Config

end Issued

/-- The commands on a dmap object that no part of the program restricts. -/
def Cmd.OnObject : Cmd → Prop
  | .newStorage | .importStorage _ | .setLocker _ | .lock _ | .unlock _ | .lockerLength _ | .lockerCheck ..
  | .lockerEnter .. | .lockerAcquire .. | .lockerDec .. | .lockerUnlock .. | .get .. | .delete .. | .check
    .. | .visits _
  | .exportTable _ | .close _ | .log .. | .now => True
  | _ => False

namespace Config

section Handlers

/-! The handlers, from their parts. -/

variable {ok : Cmd → Prop} {cfg : Config} {p : Place} {name key value : Bytes} {hkey : UInt64} {timeout : Int64}
  (object : ∀ c : Cmd, c.OnObject → ok c)

include object

theorem putKeyVal_only (dmap : (cfg.getDMap (cfg.place false hkey) name).Only ok)
    (backUp : (cfg.backUp hkey name key value timeout).Only ok) (put : ∀ r v, ok (.put r hkey v))
    (purge : (cfg.purgeOldVersions hkey name key).Only ok) : (cfg.putKeyVal hkey name key value timeout).Only ok := by
  refine dmap.bind_option rfl fun r => ?_
  refine withLock_only (object _ trivial) (object _ trivial) (backUp.bind fun done => ?_)
  cases done with
  | false => exact .ret _
  | true =>
    refine (ttlOf_only (object _ trivial)).bind fun ttl => .call (put r _) fun err => ?_
    cases err with
    | some _ => exact .ret _
    | none => exact (oplog_only (object _ trivial)).bind fun _ => purge.bind fun _ => .ret _

theorem getKeyVal_only (dmap : (cfg.getDMap (cfg.place false hkey) name).Only ok)
    (others : (cfg.getFromOthers hkey name key).Only ok) : (cfg.getKeyVal hkey name key).Only ok := by
  refine dmap.bind_option rfl fun r => ?_
  refine .call (object _ trivial) fun found => ?_
  cases found with
  | ok entry => exact answerEntry_only (object _ trivial)
  | error _ => exact others

theorem deleteKey_only (dmap : (cfg.getDMap (cfg.place false hkey) name).Only ok)
    (owners : ok (.owners (cfg.place false hkey))) (asks : ∀ host, ok (.request host (.deletePrev name key)))
    (backups : (cfg.deleteBackups hkey name key).Only ok) : (cfg.deleteKey hkey name key).Only ok := by
  refine dmap.bind_option rfl fun r => ?_
  refine withLock_only (object _ trivial) (object _ trivial) (.call owners fun hosts => ?_)
  refine (requestEach_only fun host _ => asks host).bind fun done => ?_
  cases done with
  | false => exact .ret _
  | true =>
    refine backups.bind fun done => ?_
    cases done with
    | false => exact .ret _
    | true =>
      refine (oplog_only (object _ trivial)).bind fun _ => .call (object _ trivial) fun err => ?_
      cases err <;> exact .ret _

theorem lockKey_only (dmap : (cfg.getDMap (cfg.place false hkey) name).Only ok)
    (find : (cfg.findLockKey hkey name key).Only ok) (go : ∀ r, ok (.go (.waitLockForTimeout r key timeout)))
    (asks : ∀ host, ok (.request host (.lockPrev name key timeout))) :
    (cfg.lockKey hkey name key timeout).Only ok := by
  have grant (r : Ref) : (grantLock r key timeout).Only ok :=
    grantLock_only (object _ trivial) (fun _ => object _ trivial) (fun _ => object _ trivial) (go r)
  refine dmap.bind_option rfl fun r => ?_
  refine .call (object _ trivial) fun held => ?_
  cases held with
  | true => exact grant r
  | false =>
    refine find.bind_option rfl fun owner => ?_
    dsimp only
    split
    · exact grant r
    · exact .call (asks owner) fun _ => .ret _

theorem unlockKey_only (dmap : (cfg.getDMap (cfg.place false hkey) name).Only ok)
    (find : (cfg.findLockKey hkey name key).Only ok) (asks : ∀ host, ok (.request host (.unlockPrev name key))) :
    (cfg.unlockKey hkey name key).Only ok := by
  refine find.bind_option rfl fun owner => ?_
  dsimp only
  split
  · exact dmap.bind_option rfl fun _ => releaseLock_only (object _ trivial)
  · exact .call (asks owner) fun _ => .ret _

theorem deleteLocal_only (dmap : (cfg.getDMap p name).Only ok) : (cfg.deleteLocal p hkey name).Only ok := by
  refine dmap.bind_option rfl fun r => ?_
  refine withLock_only (object _ trivial) (object _ trivial) (.call (object _ trivial) fun err => ?_)
  cases err with
  | some _ => exact .ret _
  | none => exact (oplog_only (object _ trivial)).bind fun _ => .ret _

theorem getPrevOperation_only (load : ok (.load (cfg.place false hkey) name)) :
    (cfg.getPrevOperation hkey name).Only ok := by
  refine .call load fun found => ?_
  cases found with
  | none => exact .ret _
  | some r => exact answerGet_only (object _ trivial) (object _ trivial)

theorem getBackupOperation_only (dmap : (cfg.getDMap (cfg.place true hkey) name).Only ok) :
    (cfg.getBackupOperation hkey name).Only ok :=
  dmap.bind_option rfl fun _ => answerGet_only (object _ trivial) (object _ trivial)

theorem putBackupOperation_only {timeout : Option Int64} (dmap : (cfg.getDMap (cfg.place true hkey) name).Only ok)
    (put : ∀ r v, ok (.put r hkey v)) : (cfg.putBackupOperation hkey name key value timeout).Only ok := by
  refine dmap.bind_option rfl fun r => ?_
  refine (ttlOf_only (object _ trivial)).bind fun ttl => .call (put r _) fun err => ?_
  cases err with
  | some _ => exact .ret _
  | none => exact (oplog_only (object _ trivial)).bind fun _ => .ret _

theorem findLockOperation_only (dmap : (cfg.getDMap (cfg.place false hkey) name).Only ok) :
    (cfg.findLockOperation hkey name key).Only ok := by
  refine dmap.bind_option rfl fun r => ?_
  refine .call (object _ trivial) fun held => ?_
  cases held <;> exact .ret _

theorem lockPrevOperation_only (dmap : (cfg.getDMap (cfg.place false hkey) name).Only ok)
    (go : ∀ r, ok (.go (.waitLockForTimeout r key timeout))) :
    (cfg.lockPrevOperation hkey name key timeout).Only ok :=
  dmap.bind_option rfl fun r =>
    grantLock_only (object _ trivial) (fun _ => object _ trivial) (fun _ => object _ trivial) (go r)

theorem unlockPrevOperation_only (dmap : (cfg.getDMap (cfg.place false hkey) name).Only ok) :
    (cfg.unlockPrevOperation hkey name key).Only ok :=
  dmap.bind_option rfl fun _ => releaseLock_only (object _ trivial)

theorem mergeDMaps_only {box : DMapBox} (load : ok (.load p box.name)) (store : ∀ r, ok (.store p box.name r))
    (put : ∀ r hkey v, ok (.put r hkey v)) : (mergeDMaps p box).Only ok := by
  unfold mergeDMaps
  cases box.payload with
  | none => exact .ret _
  | some tr =>
    refine .call (object _ trivial) fun fresh => ?_
    cases fresh with
    | none => exact .ret _
    | some fresh =>
      refine .call load fun found => ?_
      cases found with
      | none => exact (newOwnerLocker_only (object _ trivial)).bind fun _ => .call (store fresh) fun _ => .ret _
      | some r =>
        refine withLock_only (object _ trivial) (object _ trivial) (.call (object _ trivial) fun tables => ?_)
        refine (mergeInto_only (fun _ => object _ trivial) (put r)).bind fun err => ?_
        cases err <;> exact .ret _

theorem moveDMap_only {r : Ref} {owner : Host}
    (asks : ∀ payload, ok (.request owner (.moveDMap p.backup ⟨p.id, name, some payload⟩)))
    (remove : ok (.remove p name)) (count : ok (.addCount p (-1))) (snapshot : ok (.destroySnapshot p name)) :
    (cfg.moveDMap p name r owner).Only ok := by
  have locks : (lockCount p r).Only ok := by
    unfold lockCount
    split
    · exact .ret _
    · exact .call (object _ trivial) fun _ => .ret _
  have destroyed : (act (.destroySnapshot p name)).Only ok := .call snapshot fun _ => .ret _
  have dropped : (cfg.dropMoved p name r).Only ok :=
    .call remove fun _ => .call count fun _ => .call (object _ trivial) fun _ =>
      (snapshotCall_only destroyed).bind fun _ => .ret _
  refine withLock_only (object _ trivial) (object _ trivial) (locks.bind fun held => ?_)
  split
  · exact .ret _
  · refine .call (object _ trivial) fun exported => ?_
    cases exported with
    | error _ => exact .ret _
    | ok payload =>
      refine .call (asks payload) fun answer => ?_
      cases answer with
      | ok => exact dropped
      | keyNotFound | noSuchLock | failed => exact .ret _

theorem destroyDMapOperation_only (load : ∀ p ∈ cfg.destroyPlaces, ok (.load p name))
    (snapshot : ∀ p ∈ cfg.destroyPlaces, ok (.destroySnapshot p name))
    (remove : ∀ p ∈ cfg.destroyPlaces, ok (.remove p name)) : (cfg.destroyDMapOperation name).Only ok := by
  have inPlace (p : Place) (mem : p ∈ cfg.destroyPlaces) : (cfg.destroyIn name p).Only ok := by
    refine .call (load p mem) fun found => ?_
    cases found with
    | none => exact .ret _
    | some r =>
      refine .call (object _ trivial) fun closed => ?_
      cases closed with
      | false => exact .ret _
      | true =>
        have destroyed : (act (.destroySnapshot p name)).Only ok := .call (snapshot p mem) fun _ => .ret _
        refine (snapshotCall_only destroyed).bind fun done => ?_
        cases done with
        | false => exact .ret _
        | true => exact .call (remove p mem) fun _ => .ret _
  suffices each : ∀ places : List Place, (∀ p ∈ places, (cfg.destroyIn name p).Only ok) →
      (cfg.destroyEach name places).Only ok from each _ inPlace
  intro places inPlaces
  induction places with
  | nil => exact .ret _
  | cons p places ih =>
    refine (inPlaces p List.mem_cons_self).bind fun done => ?_
    cases done with
    | false => exact .ret _
    | true => exact ih fun q mem => inPlaces q (List.mem_cons_of_mem _ mem)

end Handlers

end Config

end Olric
