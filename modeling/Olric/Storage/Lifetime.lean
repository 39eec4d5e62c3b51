import Olric.Storage.DeleteSpec
import Olric.Storage.MergeSpec
import Olric.Storage.Transport

namespace Olric

namespace Storage

variable {s s' : Storage} {hkey : UInt64} {err : Option StorageError}

theorem retry_open {write : Table → Except StorageError Table} {mmaps : List Bool}
    (run : retry write mmaps s = .ok (s', err)) : s'.closed = s.closed ∧ s'.tables ≠ [] := by
  refine retry_rule (P := fun u => u.closed = s.closed) (Q := fun u => u.closed = s.closed ∧ u.tables ≠ []) run
    rfl ?_ ?_ ?_
  · intro u t nt mmapOk same _ _ _
    exact same
  · intro u t stored same _ _ _
    exact ⟨same, by simp⟩
  · intro u e same nonempty _
    exact ⟨same, nonempty⟩

theorem put_open {mmaps : List Bool} {value : VData} (run : s.put mmaps hkey value = .ok (s', err)) :
    s'.closed = s.closed ∧ s'.tables ≠ [] := retry_open run

theorem deleteScan_length (hkey : UInt64) (tables : List Table) :
    (deleteScan hkey tables).length = tables.length := by
  rcases deleteScan_cases hkey tables with ⟨_, same⟩ | ⟨newer, t, older, split, _, _, result⟩
  · rw [same]
  · rw [result, split]
    simp

theorem delete_open {mmapOk : Bool} (run : s.delete mmapOk hkey = .ok (s', err)) :
    s'.closed = s.closed ∧ s'.tables ≠ [] := by
  have nonempty : s.tables ≠ [] := by
    rintro empty
    simp [delete, empty] at run
  have scanned : (deleteScan hkey s.tables.reverse).reverse ≠ [] := by
    intro empty
    have length := deleteScan_length hkey s.tables.reverse
    rw [List.reverse_eq_nil_iff.1 empty, List.length_reverse] at length
    exact nonempty (List.eq_nil_of_length_eq_zero length.symm)
  rcases delete_cases run with rfl | ⟨_, nt, _, rfl⟩
  · exact ⟨rfl, scanned⟩
  · exact ⟨rfl, by simp⟩

theorem chunkedMergeTables_open {order : Nat → List UInt64} {mmapOk done : Bool}
    (run : s.chunkedMergeTables order mmapOk = .ok (done, s')) : s'.closed = s.closed ∧ s'.tables ≠ [] := by
  rcases chunkedMergeTables_cases run with ⟨_, single, rfl⟩ | ⟨_, _, _, _, _, _,
    ⟨_, rfl⟩ | ⟨_, _, _, rfl⟩ | ⟨_, _, rfl⟩⟩
  · exact ⟨rfl, by rintro empty; simp [empty] at single⟩
  · exact ⟨rfl, by simp⟩
  · exact ⟨rfl, by simp⟩
  · exact ⟨rfl, by simp⟩

theorem new_open {mmapOk : Bool} {size : Int} (made : new mmapOk size = .ok s) :
    s.closed = false ∧ s.tables ≠ [] := by
  obtain ⟨t, _, rfl⟩ := new_eq made
  exact ⟨rfl, List.cons_ne_nil t []⟩

theorem close_closed (s : Storage) (munmapOk : Bool) : (s.close munmapOk).1.closed = true := by
  unfold close
  split
  · assumption
  · split <;> rfl

end Storage

end Olric
