import Mathlib
import JarRename.Jar.Disk

/-!
# Temporary files

A temporary file stands at a place that nothing else on the disk has to do with. So what is written
to it shows nowhere else, and without it the disk is the one from before.
-/
namespace JarRename.Jar.Disk

/-- The disk with an archive beside all that it holds. -/
def withArchive (disk : Disk) (place : Place) (entries : List Entry) : Disk :=
  { disk with nodes := disk.nodes ++ [(place, .archive entries)] }

variable {disk : Disk} {place : Place}

theorem Fresh.filter_nodes (h : disk.Fresh place) :
    disk.nodes.filter (·.1 != place) = disk.nodes :=
  List.filter_eq_self.2 fun stored hs => bne_iff_ne.2 (h.not_stored stored hs)

theorem Fresh.put (h : disk.Fresh place) (entries : List Entry) :
    disk.put place (.archive entries) = disk.withArchive place entries := by
  simp only [Disk.put, Disk.remove, h.filter_nodes, withArchive]

theorem Fresh.remove (h : disk.Fresh place) (entries : List Entry) :
    (disk.withArchive place entries).remove place = disk := by
  simp [Disk.remove, withArchive, List.filter_append, h.filter_nodes]

theorem Fresh.node? (h : disk.Fresh place) (entries : List Entry) :
    (disk.withArchive place entries).node? place = some (.archive entries) := by
  have hnone : disk.nodes.lookup place = none := by
    rw [List.lookup_eq_none_iff]
    exact fun stored hs => bne_iff_ne.2 (h.not_stored stored hs).symm
  simp [Disk.node?, withArchive, h.not_around, List.lookup_append, hnone]

theorem Fresh.append (h : disk.Fresh place) (entries : List Entry) (entry : Entry) :
    (disk.withArchive place entries).append place entry =
      disk.withArchive place (entries ++ [entry]) := by
  rw [Disk.append, h.node?]
  simp [Disk.put, withArchive, Disk.remove, List.filter_append, h.filter_nodes]

end JarRename.Jar.Disk
