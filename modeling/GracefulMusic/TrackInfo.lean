import GracefulMusic.Text

/-! Track infos (`track_info.c`).

A track info is one tagged file. `uid` is unique to the object, so comparing infos
by `uid` is comparing the pointers. -/
namespace GracefulMusic

structure TrackInfo where
  uid : Nat
  filename : Text
  comments : List (Text × Text) := []
  mtime : Int := 0
  duration : Int := -1
  bitrate : Int := -1
  codec : Option Text := none
  codecProfile : Option Text := none
  tracknumber : Int := -1
  discnumber : Int := -1
  date : Int := -1
  originaldate : Int := -1
  artist : Option Text := none
  album : Option Text := none
  title : Option Text := none
  albumartist : Option Text := none
  artistsort : Option Text := none
  albumsort : Option Text := none
  isVaCompilation : Bool := false
  playCount : Nat := 0
  bpm : Int := -1
  deriving DecidableEq

/-- The `SORT_*` constants; the `REV_SORT_*` ones are these with the reverse flag. -/
inductive SortField where
  | artist | album | title | tracknumber | discnumber | date | originaldate
  | rgTrackGain | rgTrackPeak | rgAlbumGain | rgAlbumPeak | genre | comment | albumartist
  | playCount | filename | filemtime | bitrate | codec | codecProfile | media | bpm
  deriving DecidableEq

structure SortKey where
  field : SortField
  rev : Bool
  deriving DecidableEq

/-- `track_info_cmp`, over the comparison of one field; a key list is what comes
before `SORT_INVALID`. The first field that differs decides. -/
def trackInfoCmp (fieldCmp : SortField → TrackInfo → TrackInfo → Int) (a b : TrackInfo) :
    List SortKey → Int
  | [] => 0
  | key :: keys =>
    let res := fieldCmp key.field a b
    if res ≠ 0 then (if key.rev then -res else res) else trackInfoCmp fieldCmp a b keys

end GracefulMusic
