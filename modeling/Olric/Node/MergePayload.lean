import Olric.Node.Eviction
import Olric.Node.Transfer
import Olric.Storage.Accounting

namespace Olric

open Program

/-- Entries have been added to a map that did not have their keys: nothing else is new, and nothing is
gone or replaced. -/
structure MergedInto (payload before after : UInt64 → Option VData) : Prop where
  kept : ∀ {hkey v}, before hkey = some v → after hkey = some v
  added : ∀ {hkey v}, after hkey = some v → before hkey = some v ∨ payload hkey = some v

namespace MergedInto

variable {payload before between after : UInt64 → Option VData}

theorem refl : MergedInto payload before before := ⟨id, .inl⟩

theorem trans (first : MergedInto payload before between) (second : MergedInto payload between after) :
    MergedInto payload before after where
  kept found := second.kept (first.kept found)
  added found := (second.added found).elim first.added .inr

theorem update {hkey : UInt64} {v : VData} (absent : before hkey = none) (found : payload hkey = some v) :
    MergedInto payload before (Function.update before hkey (some v)) where
  kept {other w} former := by
    rw [Function.update_of_ne, former]
    rintro rfl
    cases absent.symm.trans former
  added {other w} stored := by
    by_cases same : other = hkey
    · subst same
      rw [Function.update_self] at stored
      exact .inr (found.trans stored)
    · rw [Function.update_of_ne same] at stored
      exact .inl stored

/-- Once all keys of the payload are there, each key has its former value, or else the one of the payload. -/
theorem eq_or (merged : MergedInto payload before after)
    (complete : ∀ {hkey v}, payload hkey = some v → (after hkey).isSome)
    (hkey : UInt64) : after hkey = (before hkey).or (payload hkey) := by
  cases former : before hkey with
  | some v => exact merged.kept former
  | none =>
    rw [Option.none_or]
    cases sent : payload hkey with
    | none =>
      refine Option.eq_none_iff_forall_ne_some.2 fun v found => ?_
      rcases merged.added found with here | here
      · cases former.symm.trans here
      · cases sent.symm.trans here
    | some v =>
      obtain ⟨w, found⟩ := Option.isSome_iff_exists.1 (complete sent)
      rcases merged.added found with here | here
      · cases former.symm.trans here
      · rw [found, ← here, sent]

/-- There is nothing to add to a map that has all keys of the payload. -/
theorem eq_self (merged : MergedInto payload before after)
    (complete : ∀ {hkey v}, payload hkey = some v → (before hkey).isSome) : after = before := by
  funext hkey
  cases former : before hkey with
  | some v => exact merged.kept former
  | none =>
    refine Option.eq_none_iff_forall_ne_some.2 fun v found => ?_
    rcases merged.added found with here | here
    · cases former.symm.trans here
    · have there := complete here
      rw [former] at there
      cases there

end MergedInto

section Run

variable {tid : Tid} {p : Place} {r : Ref} {s s' : Node} {dm : DMap} {payload : UInt64 → Option VData}

theorem mergeTableInto_run {merr err : Option StorageError} {entries : List (UInt64 × VData)}
    (run : (Config.mergeTableInto r merr entries).Runs (Node.exec tid) s err s') (found : s.dmaps r = some dm)
    (valid : dm.str.Valid) (listed : ∀ e ∈ entries, payload e.1 = some e.2) (fits : ∀ e ∈ entries, e.2.Fits) :
    ∃ str, s' = s.setDMap r { dm with str } ∧ str.Valid ∧ MergedInto payload dm.str.layers.lookup str.layers.lookup ∧
      (err = none → ∀ e ∈ entries, (str.layers.lookup e.1).isSome) := by
  induction entries generalizing merr s dm with
  | nil =>
    obtain ⟨_, rfl⟩ := run
    refine ⟨dm.str, ?_, valid, .refl, fun _ e mem => absurd mem List.not_mem_nil⟩
    rw [Node.setDMap, ← found, Function.update_eq_self]
  | cons e entries ih =>
    obtain ⟨hkey, entry⟩ := e
    obtain ⟨here, listed⟩ := List.forall_mem_cons.1 listed
    obtain ⟨entryFits, fits⟩ := List.forall_mem_cons.1 fits
    obtain ⟨there, _, ⟨dm₁, found₁, checked, rfl⟩, rest⟩ := run
    cases found.symm.trans found₁
    rw [Storage.check_eq valid.nonempty, Except.ok.injEq] at checked
    cases there with
    | true =>
      obtain ⟨str, same, valid', merged, complete⟩ := ih rest found valid listed fits
      refine ⟨str, same, valid', merged, fun none => List.forall_mem_cons.2 ⟨?_, complete none⟩⟩
      obtain ⟨v, former⟩ := Option.isSome_iff_exists.1 checked
      rw [merged.kept former]
      rfl
    | false =>
      have absent : dm.str.layers.lookup hkey = none := by simpa using checked
      obtain ⟨reply, _, ⟨dm₂, mmaps, stored, found₂, put, rfl⟩, rest⟩ := rest
      cases found.symm.trans found₂
      cases reply with
      | some e =>
        obtain ⟨rfl, rfl⟩ := rest
        obtain ⟨valid', same⟩ := Storage.put_failed valid put
        exact ⟨stored, rfl, valid', by rw [same]; exact .refl, by rintro ⟨⟩⟩
      | none =>
        obtain ⟨valid', lookup⟩ := Storage.put_spec valid entryFits.value put
        obtain ⟨str, rfl, valid'', merged, complete⟩ := ih rest (setDMap_found.2 (.inl ⟨rfl, rfl⟩)) valid' listed fits
        dsimp only at merged
        rw [lookup] at merged
        refine ⟨str, ?_, valid'', (MergedInto.update absent here).trans merged, fun none => ?_⟩
        · simp [Node.setDMap]
        · refine List.forall_mem_cons.2 ⟨?_, complete none⟩
          rw [merged.kept (Function.update_self ..)]
          rfl

/-- `mergeDMaps` with a dmap that is there. -/
theorem mergeDMaps_run {box : DMapBox} {tr : Transport} {source : Storage} {answer : Response}
    (run : (Config.mergeDMaps p box).Runs (Node.exec tid) s answer s') (sent : box.payload = some tr)
    (sourceValid : source.Valid) (exported : source.exportTable = .ok tr)
    (loaded : (s.partition p).m.lookup box.name = some r) (found : s.dmaps r = some dm) (valid : dm.str.Valid) :
    ∃ dm', s'.dmaps r = some dm' ∧ s'.partition = s.partition ∧ dm'.str.Valid ∧
      MergedInto source.layers.lookup dm.str.layers.lookup dm'.str.layers.lookup ∧
      (answer = .ok [] → ∀ {hkey v}, source.layers.lookup hkey = some v → (dm'.str.layers.lookup hkey).isSome) := by
  unfold Config.mergeDMaps at run
  rw [sent] at run
  obtain ⟨imported, s₁, import_, rest⟩ := run
  cases imported with
  | none =>
    obtain ⟨rfl, rfl⟩ := rest
    cases import_
    exact ⟨dm, found, rfl, valid, .refl, nofun⟩
  | some fresh =>
    obtain ⟨free, str, made, rfl⟩ := import_
    obtain ⟨freshValid, content, t, single⟩ := Storage.importTable_spec sourceValid exported made
    have apart : r ≠ fresh := by
      rintro rfl
      cases free.symm.trans found
    obtain ⟨_, _, ⟨rfl, rfl⟩, rest⟩ := rest
    rw [show ((s.setDMap fresh _).partition p).m.lookup box.name = some r from loaded] at rest
    obtain ⟨_, _, ⟨dm₁, found₁, _, rfl⟩, rest⟩ := rest
    have found₂ : (s.setDMap fresh ⟨str, none, none, none⟩).dmaps r = some dm := setDMap_found.2 (.inr ⟨apart, found⟩)
    cases found₂.symm.trans found₁
    dsimp only [ret_bind] at rest
    obtain ⟨outcome, s₂, inner, rest⟩ := runs_bind.1 rest
    obtain ⟨tables, _, ⟨dm₃, found₃, _, visited, rfl⟩, inner⟩ := inner
    rw [setDMap_found] at found₃
    obtain ⟨same, _⟩ | ⟨_, found₃⟩ := found₃
    · exact absurd same.symm apart
    obtain ⟨_, rfl⟩ | ⟨wrong, _⟩ := setDMap_found.1 found₃
    · obtain ⟨entries, rfl, _, listed⟩ := Storage.Visits.single single visited
      rw [content] at listed
      have sentEntry (e : UInt64 × VData) (mem : e ∈ entries) : source.layers.lookup e.1 = some e.2 :=
        (listed e.1 e.2).1 mem
      dsimp only [ret_bind] at inner
      obtain ⟨err, s₃, loop, ends⟩ := runs_bind.1 inner
      have answers : (outcome = .ok [] → err = none) ∧ s₂ = s₃ := by
        cases err <;> obtain ⟨rfl, rfl⟩ := ends <;> simp
      obtain ⟨okay, rfl⟩ := answers
      obtain ⟨_, _, loop, rfl, rfl⟩ := runs_bind.1 loop
      obtain ⟨merged, rfl, mergedValid, into, complete⟩ := mergeTableInto_run loop
        (setDMap_found.2 (.inl ⟨rfl, rfl⟩)) valid sentEntry fun e mem => sourceValid.fits (sentEntry e mem)
      obtain ⟨_, _, ⟨dm₄, found₄, rfl⟩, rfl, rfl⟩ := rest
      obtain ⟨_, rfl⟩ | ⟨wrong, _⟩ := setDMap_found.1 found₄
      · refine ⟨_, setDMap_found.2 (.inl ⟨rfl, rfl⟩), rfl, mergedValid, into, fun okays hkey v there => ?_⟩
        exact complete (okay okays) (hkey, v) ((listed hkey v).2 there)
      · exact absurd rfl wrong
    · exact absurd rfl wrong

/-- A payload that is merged into a dmap: the dmap keeps its entries, and every new one is the payload's.
Without an error every key has its former entry or else the payload's, and to merge the same payload
again changes nothing that can be read. -/
theorem merge_payload {box : DMapBox} {tr : Transport} {source : Storage} {answer : Response}
    (loaded : (s.partition p).m.lookup box.name = some r) (found : s.dmaps r = some dm) (destination : dm.str.Used)
    (origin : source.Used) (exported : source.exportTable = .ok tr) (sent : box.payload = some tr)
    (run : (Config.mergeDMaps p box).Runs (Node.exec tid) s answer s') :
    ∃ dm', s'.dmaps r = some dm' ∧
      (∀ hkey v, dm.str.get hkey = .ok (.ok v) → dm'.str.get hkey = .ok (.ok v)) ∧
      (∀ hkey v, dm'.str.get hkey = .ok (.ok v) → dm.str.get hkey = .ok (.ok v) ∨ source.get hkey = .ok (.ok v)) ∧
      (answer = .ok [] →
        (∀ hkey, dm.str.get hkey = .ok (.error .keyNotFound) → dm'.str.get hkey = source.get hkey) ∧
        ∀ tid' again s'', (Config.mergeDMaps p box).Runs (Node.exec tid') s' again s'' →
          ∃ dm'', s''.dmaps r = some dm'' ∧ ∀ hkey, dm''.str.get hkey = dm'.str.get hkey) := by
  have originValid := origin.valid
  have valid := destination.valid
  obtain ⟨dm', found', partition, valid', merged, complete⟩ :=
    mergeDMaps_run run sent originValid exported loaded found valid
  have reads {str : Storage} (valid : str.Valid) {hkey : UInt64} {v : VData} :
      str.get hkey = .ok (.ok v) ↔ str.layers.lookup hkey = some v := Storage.get_eq_some_iff valid.nonempty
  refine ⟨dm', found', fun hkey v former => ?_, fun hkey v there => ?_, fun okay => ⟨fun hkey absent => ?_, ?_⟩⟩
  · exact (reads valid').2 (merged.kept ((reads valid).1 former))
  · exact (merged.added ((reads valid').1 there)).imp (reads valid).2 (reads originValid).2
  · have none : dm.str.layers.lookup hkey = none := by
      cases former : dm.str.layers.lookup hkey with
      | none => rfl
      | some v => cases absent.symm.trans ((reads valid).2 former)
    rw [Storage.get_eq valid'.nonempty, Storage.get_eq originValid.nonempty, merged.eq_or (complete okay), none,
      Option.none_or]
  · intro tid' again s'' second
    obtain ⟨dm'', found'', _, valid'', merged', _⟩ :=
      mergeDMaps_run second sent originValid exported (by rw [partition]; exact loaded) found' valid'
    refine ⟨dm'', found'', fun hkey => ?_⟩
    rw [Storage.get_eq valid''.nonempty, Storage.get_eq valid'.nonempty, merged'.eq_self (complete okay)]

end Run

/-- An entry that is sent to a member whose dmap is empty. -/
theorem merge_payload_single : ∃ (str source : Storage) (tr : Transport) (s' : Node) (dm' : DMap),
    source.exportTable = .ok tr ∧
    (Config.mergeDMaps ⟨false, 0⟩ ⟨0, [100], some tr⟩).Runs (Node.exec 0) str.onNode (.ok []) s' ∧
    s'.dmaps 0 = some dm' ∧ dm'.str.get 7 = source.get 7 := by
  obtain ⟨t, stored, created, put, valid, _, get, _⟩ := Storage.one_entry
  have target : Storage.Used ⟨[t], false, false⟩ := .new created
  have putHere : Storage.put ⟨[t], false, false⟩ [] 7 ⟨[107], 5, [1, 2]⟩ = .ok (⟨[stored], false, false⟩, none) :=
    Storage.put_of_fits rfl put
  have source : Storage.Used ⟨[stored], false, false⟩ :=
    .call (.put 7 ⟨[107], 5, [1, 2]⟩ []) target trivial trivial (by rw [Storage.perform, putHere]; rfl)
  obtain ⟨tr, exported⟩ : ∃ tr, Storage.exportTable ⟨[stored], false, false⟩ = .ok tr := ⟨_, rfl⟩
  have clean : stored.Clean :=
    Table.stable_clean.put ((Storage.Reached.new created).clean t (List.mem_singleton.2 rfl)) put
  have imported := Storage.importTable_eq rfl clean exported
  have visited : Storage.Visits ⟨[stored], false, false⟩ [[(7, ⟨[107], 5, [1, 2]⟩)]] := by
    refine .cons ⟨⟨List.nodup_singleton _, fun hkey => ?_⟩, ?_⟩ .nil
    · rw [← Table.isSome_get, get]
      by_cases same : hkey = 7 <;> simp [same]
    · simp [get]
  have absent : Storage.check ⟨[t], false, false⟩ 7 = .ok false := by
    rw [Storage.check_eq target.valid.nonempty, (Storage.new_spec created).2]
    rfl
  have loaded : ((Storage.onNode ⟨[t], false, false⟩).partition ⟨false, 0⟩).m.lookup [100] = some 0 :=
    Finmap.lookup_singleton_eq
  have free : (Storage.onNode ⟨[t], false, false⟩).dmaps 1 = none := rfl
  have start : (Config.mergeDMaps ⟨false, 0⟩ ⟨0, [100], some tr⟩).Reaches (Node.exec 0)
      (Storage.onNode ⟨[t], false, false⟩) _ _ :=
    .refl
  have imports := start.andThen (c := Cmd.importStorage tr) (some 1) ⟨free, _, imported, rfl⟩
  have loads := imports.andThen (c := Cmd.load ⟨false, 0⟩ [100]) (some 0) ⟨loaded.symm, rfl⟩
  have locks := loads.andThen (c := Cmd.lock 0) () ⟨_, Eviction.onNode_found, rfl, rfl⟩
  have visits := locks.andThen (c := Cmd.visits 1) [[(7, ⟨[107], 5, [1, 2]⟩)]] ⟨_, rfl, by simp, visited, rfl⟩
  have checks := visits.andThen (c := Cmd.check 0 7) false ⟨_, rfl, absent, rfl⟩
  have puts := checks.andThen (c := Cmd.put 0 7 ⟨[107], 5, [1, 2]⟩) none ⟨_, [], _, rfl, putHere, rfl⟩
  have unlocks := puts.andThen (c := Cmd.unlock 0) () ⟨_, rfl, rfl⟩
  have run := unlocks.runs (a := Response.ok [])
  obtain ⟨dm', found', _, _, okay⟩ := merge_payload loaded Eviction.onNode_found target source exported rfl run
  refine ⟨_, _, tr, _, dm', exported, run, found', (okay rfl).1 7 ?_⟩
  rw [Storage.get_eq target.valid.nonempty, (Storage.new_spec created).2]
  rfl

end Olric
