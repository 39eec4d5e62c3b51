import Olric.Node.Grip

namespace Olric

open Program

/-- How far a goroutine has got in `putKeyVal`. From `locked` on it holds the mutex of the dmap, which
it gives back at the end. -/
inductive Putting
  | search (g : Search)
  | locked (r : Ref)
  | counted (r : Ref) (memCount : Int)
  | backups (r : Ref) (owners : List Host)
  | backed (r : Ref)
  | written (r : Ref)
  | failing (r : Ref)
  | done
  | failed

/-- The current ones of the backup owners. -/
def Config.currentOwners (cfg : Config) (memCount : Int) (owners : List Host) : List Host :=
  if (owners.length : Int) > cfg.calcMaxBackupCount memCount then
    owners.drop (owners.length - cfg.calcMaxBackupCount memCount).toNat
  else owners

/-- The commands of `putKeyVal`, in their order. -/
def putting (cfg : Config) (hkey : UInt64) (name key value : Bytes) (timeout : Int64) :
    Discipline Cmd Cmd.Reply Putting where
  allows
    | .search g, c => (searching (cfg.place false hkey) name).allows g c ∨ ∃ r, g = .found r ∧ c = .lock r
    | .locked _, c => c = .go (.putKeyValBackup hkey name key value timeout) ∧ cfg.asyncBackup = true ∨
      c = .numMembers ∧ cfg.asyncBackup = false
    | .counted _ _, c => c = .owners (cfg.place true hkey)
    | .backups _ owners, c => c = .requestAll owners (Config.putBackupRequest name key value timeout)
    | .backed r, c => c = .now ∨ ∃ ttl, c = .put r hkey ⟨key, ttl, value⟩
    | .written r, c => c = .log r hkey .put ∨ c = .owners (cfg.place false hkey) ∨
      (∃ owner, c = .request owner (.deletePrev name key)) ∨ c = .unlock r
    | .failing r, c => c = .unlock r
    | .done, _ | .failed, _ => False
  after
    | .search (.found r), .lock _, _ => if cfg.backupCount = 0 then .backed r else .locked r
    | .search g, c, reply => .search ((searching (cfg.place false hkey) name).after g c reply)
    | .locked r, .go _, _ => .backed r
    | .locked r, .numMembers, memCount => .counted r memCount
    | .counted r memCount, .owners _, owners =>
      if (cfg.currentOwners memCount owners).isEmpty then .backed r
      else .backups r (cfg.currentOwners memCount owners)
    | .backups r _, .requestAll .., answers =>
      if answers.any fun answer => answer matches .ok _ then .backed r else .failing r
    | .backed r, .put .., err => err.elim (.written r) fun _ => .failing r
    | .written _, .unlock _, _ => .done
    | .failing _, .unlock _, _ => .failed
    | g, _, _ => g

/-- What `putKeyVal` answers where it ends. -/
def Putting.Answers (answer : Response) : Putting → Prop
  | .done => answer = .ok []
  | .search .failed | .failed => answer = .failed
  | _ => False

section

variable {cfg : Config} {hkey : UInt64} {name key value : Bytes} {timeout : Int64} {r : Ref}

theorem getDMap_puts : (cfg.getDMap (cfg.place false hkey) name).Follows (putting cfg hkey name key value timeout)
    (.search .start) fun dm g => g = .search (dm.elim .failed .found) := by
  refine (getDMap_searches.embed Putting.search ?_).mono ?_
  · intro g c allowed
    refine ⟨.inl allowed, fun reply => ?_⟩
    cases g <;> first | rfl | exact allowed.elim
  · rintro dm _ ⟨_, rfl, rfl⟩
    rfl

theorem putKeyValBackup_puts (sync : cfg.asyncBackup = false) :
    (cfg.putKeyValBackup hkey name key value timeout).Follows (putting cfg hkey name key value timeout) (.locked r)
      fun ok g => g = bif ok then .backed r else .failing r := by
  refine ⟨.inr ⟨rfl, sync⟩, fun memCount => ⟨rfl, fun owners => ?_⟩⟩
  change Follows _ (if (cfg.currentOwners memCount owners).isEmpty then _ else _)
    (if (cfg.currentOwners memCount owners).isEmpty then _ else _) _
  cases empty : (cfg.currentOwners memCount owners).isEmpty with
  | true => exact rfl
  | false =>
    refine ⟨rfl, fun answers => ?_⟩
    change (if _ then _ else _) = bif _ then _ else _
    cases answers.any fun answer => answer matches .ok _ <;> rfl

theorem backUp_puts : (cfg.backUp hkey name key value timeout).Follows (putting cfg hkey name key value timeout)
    (if cfg.backupCount = 0 then .backed r else .locked r) fun ok g => g = bif ok then .backed r else .failing r := by
  unfold Config.backUp
  by_cases without : cfg.backupCount = 0
  · rw [if_pos without, if_pos without]
    rfl
  · rw [if_neg without, if_neg without]
    split
    next async => exact ⟨.inl ⟨rfl, async⟩, fun _ => rfl⟩
    next sync => exact putKeyValBackup_puts (by simpa using sync)

theorem ttlOf_puts : (Config.ttlOf timeout).Follows (putting cfg hkey name key value timeout) (.backed r)
    fun _ g => g = .backed r :=
  .steady (Config.ttlOf_only ⟨.inl rfl, fun _ => rfl⟩)

theorem oplog_puts : (cfg.oplog r hkey .put).Follows (putting cfg hkey name key value timeout) (.written r)
    fun _ g => g = .written r :=
  .steady (Config.oplog_only ⟨.inl rfl, fun _ => rfl⟩)

theorem purgeOldVersions_puts : (cfg.purgeOldVersions hkey name key).Follows (putting cfg hkey name key value timeout)
    (.written r) fun _ g => g = .written r :=
  .steady (Config.purgeOldVersions_only ⟨.inr (.inl rfl), fun _ => rfl⟩
    fun owner => ⟨.inr (.inr (.inl ⟨owner, rfl⟩)), fun _ => rfl⟩)

theorem putKeyVal_puts : (cfg.putKeyVal hkey name key value timeout).Follows (putting cfg hkey name key value timeout)
    (.search .start) fun answer g => g.Answers answer := by
  refine getDMap_puts.bind ?_
  rintro dm _ rfl
  cases dm with
  | none => exact rfl
  | some r =>
    refine ⟨.inr ⟨r, rfl, rfl⟩, fun _ => ?_⟩
    dsimp only [ret_bind]
    -- The goroutine holds the mutex until it has an answer.
    refine Follows.bind (Q := fun answer g => g = .written r ∧ answer = .ok [] ∨ g = .failing r ∧ answer = .failed)
      (backUp_puts.bind ?_) ?_
    · rintro ok _ rfl
      cases ok with
      | false => exact .inr ⟨rfl, rfl⟩
      | true =>
        refine ttlOf_puts.bind ?_
        rintro ttl _ rfl
        refine ⟨.inr ⟨ttl, rfl⟩, fun err => ?_⟩
        cases err with
        | some e => exact .inr ⟨rfl, rfl⟩
        | none =>
          refine oplog_puts.bind ?_
          rintro _ _ rfl
          refine purgeOldVersions_puts.bind ?_
          rintro _ _ rfl
          exact .inl ⟨rfl, rfl⟩
    · rintro answer g (⟨rfl, rfl⟩ | ⟨rfl, rfl⟩)
      · exact ⟨.inr (.inr (.inr rfl)), fun _ => rfl⟩
      · exact ⟨rfl, fun _ => rfl⟩

end

/-- What a goroutine has that puts a key. -/
def Putting.grip (p : Place) (name : Bytes) : Putting → Grip
  | .search g => g.grip p name
  | .locked r | .counted r _ | .backups r _ | .backed r | .written r | .failing r =>
    { named := some (p, name, r), locked := some r }
  | .done | .failed => {}

section

variable {cfg : Config} {hkey : UInt64} {name key value : Bytes} {timeout : Int64} {g : Putting} {c : Cmd}
  {reply : c.Reply}
  {tid : Tid} {s s' : Node}

theorem Putting.grip_ite {cond : Prop} [Decidable cond] {p : Place} {grip : Grip} {g g' : Putting}
    (left : g.grip p name = grip) (right : g'.grip p name = grip) : (if cond then g else g').grip p name = grip := by
  split
  · exact left
  · exact right

theorem putting_grip (allowed : (putting cfg hkey name key value timeout).allows g c) (run : s.exec tid c reply s') :
    Grip.After c reply (g.grip (cfg.place false hkey) name)
      (((putting cfg hkey name key value timeout).after g c reply).grip (cfg.place false hkey) name) := by
  cases g with
  | search g =>
    rcases allowed with allowed | ⟨r, rfl, rfl⟩
    · have after := searching_grip allowed run
      cases g <;> first | exact after | exact allowed.elim
    · have same : ((putting cfg hkey name key value timeout).after (.search (.found r)) (.lock r) reply).grip
          (cfg.place false hkey) name = { named := some (cfg.place false hkey, name, r), locked := some r } :=
        Putting.grip_ite rfl rfl
      rw [same]
      exact .takes nofun
  | locked r => rcases allowed with ⟨rfl, _⟩ | ⟨rfl, _⟩ <;> exact .stay nofun nofun nofun nofun
  | counted r memCount =>
    obtain rfl := allowed
    have same : ((putting cfg hkey name key value timeout).after (.counted r memCount) (.owners (cfg.place true hkey))
        reply).grip (cfg.place false hkey) name =
          { named := some (cfg.place false hkey, name, r), locked := some r } :=
      Putting.grip_ite rfl rfl
    rw [same]
    exact .stay nofun nofun nofun nofun
  | backups r owners =>
    obtain rfl := allowed
    have same : ((putting cfg hkey name key value timeout).after (.backups r owners) (.requestAll owners
        (Config.putBackupRequest name key value timeout)) reply).grip (cfg.place false hkey) name =
          { named := some (cfg.place false hkey, name, r), locked := some r } := Putting.grip_ite rfl rfl
    rw [same]
    exact .stay nofun nofun nofun nofun
  | backed r =>
    rcases allowed with rfl | ⟨ttl, rfl⟩
    · exact .stay nofun nofun nofun nofun
    · cases reply <;> exact .stay nofun nofun nofun nofun
  | written r =>
    rcases allowed with rfl | rfl | ⟨owner, rfl⟩ | rfl
    · exact .stay nofun nofun nofun nofun
    · exact .stay nofun nofun nofun nofun
    · exact .stay nofun nofun nofun nofun
    · exact .gives rfl
  | failing r =>
    obtain rfl := allowed
    exact .gives rfl
  | done | failed => exact allowed.elim

theorem searching_imports {p : Place} {g : Search} {tr : Transport} :
    ¬ (searching p name).allows g (.importStorage tr) := by
  intro allowed
  cases g with
  | start | missing | inside | absent | leaving => cases allowed
  | made => rcases allowed with same | same | same | same <;> cases same
  | stored => rcases allowed with same | same <;> cases same
  | found | failed => exact allowed.elim

theorem putting_imports {tr : Transport} :
    ¬ (putting cfg hkey name key value timeout).allows g (.importStorage tr) := by
  intro allowed
  cases g with
  | search g =>
    rcases allowed with allowed | ⟨_, _, ⟨⟩⟩
    exact searching_imports allowed
  | locked => rcases allowed with ⟨same, _⟩ | ⟨same, _⟩ <;> cases same
  | backed => rcases allowed with same | ⟨_, same⟩ <;> cases same
  | written => rcases allowed with same | same | ⟨_, same⟩ | same <;> cases same
  | counted | backups | failing => cases allowed
  | done | failed => exact allowed.elim

/-- The commands of a put that change what a name stands for or what is in a storage. -/
theorem putting_cases (allowed : (putting cfg hkey name key value timeout).allows g c) : c.Calm ∨
    (∃ r, g = .search (.made r) ∧ c = .store (cfg.place false hkey) name r) ∨
    ∃ r ttl, g = .backed r ∧ c = .put r hkey ⟨key, ttl, value⟩ := by
  cases g with
  | search g =>
    rcases allowed with allowed | ⟨r, rfl, rfl⟩
    · cases g with
      | made r =>
        rcases allowed with rfl | rfl | rfl | rfl
        · exact .inl trivial
        · exact .inl trivial
        · exact .inr (.inl ⟨r, rfl, rfl⟩)
        · exact .inl trivial
      | stored r => rcases allowed with rfl | rfl <;> exact .inl trivial
      | start | missing | inside | absent | leaving =>
        obtain rfl : c = _ := allowed
        exact .inl trivial
      | found | failed => exact allowed.elim
    · exact .inl trivial
  | locked r => rcases allowed with ⟨rfl, _⟩ | ⟨rfl, _⟩ <;> exact .inl trivial
  | backed r =>
    rcases allowed with rfl | ⟨ttl, rfl⟩
    · exact .inl trivial
    · exact .inr (.inr ⟨r, ttl, rfl, rfl⟩)
  | written r => rcases allowed with rfl | rfl | ⟨owner, rfl⟩ | rfl <;> exact .inl trivial
  | counted | backups | failing =>
    obtain rfl : c = _ := allowed
    exact .inl trivial
  | done | failed => exact allowed.elim

end

end Olric
