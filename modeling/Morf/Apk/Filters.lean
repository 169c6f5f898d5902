import Morf.Apk.Exposure
import Morf.Apk.Node
import Morf.Lib.Segments

/-! `extractIntentFilters` of `apk/manifest_parser.go`, and what it reads in the printed lines of
some elements. -/

namespace Morf.Apk.Filters

open Morf.Lib
open Morf.Lib.Search

structure ManifestFilterData where
  scheme : Text
  host : Text
  port : Text
  path : Text
  pathPrefix : List Text
  pathPattern : Text
  mimeType : Text
  deriving DecidableEq

structure Contents where
  actions : List Text
  categories : List Text
  data : List ManifestFilterData
  autoVerify : Bool
  deriving DecidableEq

structure ManifestFilter extends Contents where
  priority : Int
  deriving DecidableEq

def intentFilterTag : Name := ⟨"intent-filter".toList, by decide⟩

def actionTag : Name := ⟨"action".toList, by decide⟩

def categoryTag : Name := ⟨"category".toList, by decide⟩

def dataTag : Name := ⟨"data".toList, by decide⟩

def autoVerifyKey : Name := ⟨"autoVerify".toList, by decide⟩

def schemeKey : Name := ⟨"scheme".toList, by decide⟩

def hostKey : Name := ⟨"host".toList, by decide⟩

def portKey : Name := ⟨"port".toList, by decide⟩

def pathKey : Name := ⟨"path".toList, by decide⟩

def pathPatternKey : Name := ⟨"pathPattern".toList, by decide⟩

def pathPrefixKey : Name := ⟨"pathPrefix".toList, by decide⟩

def mimeTypeKey : Name := ⟨"mimeType".toList, by decide⟩

def priorityKey : Name := ⟨"priority".toList, by decide⟩

def blankSet : List (Char × Char) := [(' ', ' '), ('\t', '\t')]

/-- `(?m)^[ \t]*E: tag[^\n]*\n[ \t]*A: android:name\(.*?\)="([^"]+)"` -/
def namedElementRe (tag : Name) : Regex :=
  .seq (.anchor .lineStart) (.seq (.star true (.set false blankSet)) (.seq (.lit (tagMark tag))
    (.seq (.star true .any) (.seq (.lit ['\n']) (.seq (.star true (.set false blankSet))
      (.seq (.lit ['A', ':', ' ']) (attrStringRe nameKey)))))))

def mpActionRe : Regex := namedElementRe actionTag

def mpCategoryRe : Regex := namedElementRe categoryTag

def findNames (re : Regex) (block : Text) : List Text :=
  (re.findAll block).map fun m => quotedGroup m.span

def extractAttribute (block : Text) (attrName : Name) : Text := (findString attrName block).getD []

def dataOf (value : Name → Text) : ManifestFilterData where
  scheme := value schemeKey
  host := value hostKey
  port := value portKey
  path := value pathKey
  pathPattern := value pathPatternKey
  pathPrefix := if value pathPrefixKey ≠ [] then [value pathPrefixKey] else []
  mimeType := value mimeTypeKey

/-- A port alone does not make a record. -/
def ManifestFilterData.recognised (d : ManifestFilterData) : Bool :=
  d.scheme ≠ [] || d.host ≠ [] || d.path ≠ [] || d.pathPattern ≠ [] || d.pathPrefix ≠ [] ||
    d.mimeType ≠ []

def readData (value : Name → Text) : Option ManifestFilterData :=
  let filterData := dataOf value
  if filterData.recognised then some filterData else none

def processDataBlock (dataBlock : Text) (filter : ManifestFilter) : ManifestFilter :=
  { filter with data := filter.data ++ (readData (extractAttribute dataBlock)).toList }

def dataScanner : Scanner Text ManifestFilter where
  starts line := Text.contains "E: data".toList line
  belongs line := [' ', ' '] <+: line || ['\t', '\t'] <+: line
  again line := "E: ".toList <+: line
  flush filter lines := processDataBlock (joinLines lines) filter

/-- Unlike the other flags, a text other than `true` does not decide. -/
def readAutoVerify (string hex : Name → Option Text) : Bool :=
  if string autoVerifyKey = some "true".toList then true
  else match hex autoVerifyKey with
    | some v => isHexValueTrue v
    | none => false

def readPriority (priority : Text) : Int :=
  if priority ≠ [] then (Text.atoi priority).getD 0 else 0

def Contents.isEmpty (c : Contents) : Bool := c.actions = [] && c.data = [] && c.categories = []

def processIntentFilterBlock (filterBlock : Text) : Option ManifestFilter :=
  let filter : ManifestFilter :=
    { actions := findNames mpActionRe filterBlock
      categories := findNames mpCategoryRe filterBlock
      data := []
      autoVerify := readAutoVerify (findString · filterBlock) (findHex · filterBlock)
      priority := 0 }
  let filter := dataScanner.run filter (filterBlock.splitOn '\n')
  let filter := { filter with priority := readPriority (extractAttribute filterBlock priorityKey) }
  if filter.toContents.isEmpty then none else some filter

def filterScanner : Scanner Text (List ManifestFilter) where
  starts line := Text.contains "E: intent-filter".toList line
  belongs line := [' '] <+: line || ['\t'] <+: line || line = []
  again line := "E: ".toList <+: line
  flush filters lines := filters ++ (processIntentFilterBlock (joinLines lines)).toList

def extractIntentFilters (block : Text) : List ManifestFilter :=
  filterScanner.run [] (block.splitOn '\n')

end Morf.Apk.Filters
