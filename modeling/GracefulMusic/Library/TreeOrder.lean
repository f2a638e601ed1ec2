import GracefulMusic.Library.Tree
import GracefulMusic.Foundation.Comparison
import GracefulMusic.TextOrder

/-! The orders of artists and albums.

Artists compare by a key of the name that sorts them, and names that compare equal have
equal keys. Albums that differ by name differ by date and name too, whatever the dates. -/
namespace GracefulMusic.Lib
open Tracks

theorem collkey_totalPreorder : TotalPreorder fun a b : CollKey => strcmp a.val b.val := by
  refine ⟨fun a b => ?_, fun a b c => strcmp_trans a.2 b.2 c.2⟩
  rw [strcmp_swap a.val b.val]
  omega

theorem collkey_eq {a b : CollKey} (h : strcmp a.val b.val = 0) : a = b :=
  Subtype.ext ((strcmp_eq_zero a.2 b.2).mp h)

/-! ### Keys -/

/-- What `special_name_cmp` compares. -/
def nameKeyCmp (a b : Int × CollKey) : Int :=
  if a.1 - b.1 ≠ 0 then a.1 - b.1 else strcmp a.2.val b.2.val

theorem nameKeyCmp_totalPreorder : TotalPreorder nameKeyCmp :=
  (TotalPreorder.sub Prod.fst).lex (collkey_totalPreorder.comap Prod.snd)

theorem nameKeyCmp_eq_zero {a b : Int × CollKey} : nameKeyCmp a b = 0 ↔ a = b := by
  constructor
  · intro h
    rw [nameKeyCmp] at h
    split at h
    · contradiction
    · rename_i htop
      exact Prod.ext (by omega) (collkey_eq h)
  · intro heq
    subst heq
    exact nameKeyCmp_totalPreorder.refl a

variable {P : Type}

def albumKey (a : Album P) : Int × CollKey := (notTop a.name.text, albumSortCollkey a)

theorem specialAlbumCmpDate_totalPreorder :
    TotalPreorder (specialAlbumCmpDate : Album P → Album P → Int) :=
  (TotalPreorder.sub fun a => notTop a.name.text).lex
    ((TotalPreorder.sub Album.date).lex (collkey_totalPreorder.comap albumSortCollkey))

/-- Dates do not make albums equal. -/
theorem albumKey_eq_of_date {a b : Album P} (h : specialAlbumCmpDate a b = 0) :
    albumKey a = albumKey b := by
  simp only [specialAlbumCmpDate] at h
  split at h
  · contradiction
  · rename_i htop
    split at h
    · contradiction
    · exact Prod.ext (by simp only [albumKey]; omega) (collkey_eq h)

namespace Tree
variable [DecidableEq P] (cfg : TreeConfig P)

def artistKey (a : Artist P) : Int × CollKey :=
  (notTop (artistSortName cfg.smartArtistSort a).text,
    (artistSortName cfg.smartArtistSort a).collkey)

theorem artistCmp_eq (a b : Artist P) :
    artistCmp cfg a b = nameKeyCmp (artistKey cfg a) (artistKey cfg b) := rfl

theorem artistCmp_totalPreorder : TotalPreorder (artistCmp cfg) :=
  nameKeyCmp_totalPreorder.comap (artistKey cfg)

omit [DecidableEq P] in
theorem albumCmp_totalPreorder (artist : Artist P) : TotalPreorder (albumCmp artist) := by
  unfold albumCmp
  split
  · exact nameKeyCmp_totalPreorder.comap albumKey
  · exact specialAlbumCmpDate_totalPreorder

omit [DecidableEq P] in
theorem albumKey_eq_of_albumCmp {artist : Artist P} {a b : Album P}
    (h : albumCmp artist a b = 0) : albumKey a = albumKey b := by
  unfold albumCmp at h
  split at h
  · exact nameKeyCmp_eq_zero.mp h
  · exact albumKey_eq_of_date h

/-- The names are updated so that the artist sorts as the new one does, which has the same
place in the tree. -/
theorem updateNames_key (artist : Artist P) (tags : Tags)
    (h : artistKey cfg (artistNew cfg tags.artistName tags.artistsortName tags.isVaCompilation) =
      artistKey cfg artist) :
    artistKey cfg (updateNames cfg artist tags).1 = artistKey cfg artist ∧
      (updateNames cfg artist tags).1.albumRoot = artist.albumRoot ∧
      (updateNames cfg artist tags).1.isCompilation = artist.isCompilation := by
  obtain ⟨root, name, sortName, autoSortName, comp⟩ := artist
  obtain ⟨artistName, albumName, artistsort, albumsort, va, date⟩ := tags
  refine ⟨?_, ?_, ?_⟩
  · cases sortName <;> cases artistsort <;> cases autoSortName <;>
      cases hauto : autoArtistSortName artistName <;>
      simp_all [updateNames, artistKey, artistSortName, artistNew]
  · cases sortName <;> cases artistsort <;> cases autoSortName <;>
      cases hauto : autoArtistSortName artistName <;> simp [updateNames, hauto]
  · cases sortName <;> cases artistsort <;> cases autoSortName <;>
      cases hauto : autoArtistSortName artistName <;> simp [updateNames, hauto]

end Tree

end GracefulMusic.Lib
