import Mathlib.Data.List.Nodup

/-!
# Recency lists

A recency list holds at most one entry for each key, the entry that was
pushed longest ago first.  Pushing an entry drops the earlier entry of its
key.
-/

namespace LinuxKernelCode.Recency

universe u v

variable {α : Type u} {κ : Type v}

structure RecencyList (key : α → κ) where
  entries : List α
  keysNodup : (entries.map key).Nodup

namespace RecencyList

variable {key : α → κ}

theorem keysNodup_of_sublist
    {entries kept : List α} (hsublist : kept.Sublist entries)
    (hnodup : (entries.map key).Nodup) : (kept.map key).Nodup :=
  hnodup.sublist (hsublist.map key)

def empty : RecencyList key := ⟨[], List.nodup_nil⟩

def push [DecidableEq κ] (value : α) (list : RecencyList key) :
    RecencyList key where
  entries := (list.entries.filter fun other => key other ≠ key value) ++ [value]
  keysNodup := by
    rw [List.map_append, List.nodup_append]
    refine ⟨keysNodup_of_sublist List.filter_sublist list.keysNodup,
      List.nodup_singleton _, ?_⟩
    intro first hfirst second hsecond heq
    obtain ⟨other, hother, hkey⟩ := List.mem_map.mp hfirst
    have hne := of_decide_eq_true (List.mem_filter.mp hother).2
    have hlast : second = key value := by simpa using hsecond
    exact hne (hkey.trans (heq.trans hlast))

def delete [DecidableEq α] (value : α) (list : RecencyList key) :
    RecencyList key where
  entries := list.entries.filter fun other => other ≠ value
  keysNodup := keysNodup_of_sublist List.filter_sublist list.keysNodup

def dropOldest (count : ℕ) (list : RecencyList key) : RecencyList key where
  entries := list.entries.drop (min count list.entries.length)
  keysNodup :=
    keysNodup_of_sublist (List.drop_sublist _ _) list.keysNodup

theorem dropOldest_entries (count : ℕ) (list : RecencyList key) :
    (list.dropOldest count).entries = list.entries.drop count := by
  by_cases hle : count ≤ list.entries.length
  · simp [dropOldest, hle]
  · have hall : list.entries.length ≤ count := by omega
    simp [dropOldest, List.drop_of_length_le, hall]

end RecencyList

end LinuxKernelCode.Recency
