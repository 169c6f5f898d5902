import Morf.Apk.Document
import Morf.Apk.Firebase
import Morf.Detect.Hits
import Morf.Detect.Races
import Morf.Gate.History
import Morf.Ingest.Download
import Morf.Ios.Corpus
import Morf.Ios.Flatten
import Morf.Ios.Unpack
import Morf.Lockfile.Consistency
import Morf.Lockfile.Formats
import Morf.Mcp.Results
import Morf.Models.ScanJob
import Morf.Queue.Attempts
import Morf.Queue.Backoff
import Morf.Queue.Consistency
import Morf.Queue.DeadLetters
import Morf.Queue.Intake
import Morf.Queue.Notices
import Morf.Queue.Reapers
import Morf.Queue.Recovery
import Morf.Queue.Retries
import Morf.Queue.Trim
import Morf.Report.Sarif
import Morf.Sbom.NativeLibs
import Morf.Scan.Apk
import Morf.Scan.Compare
import Morf.Scan.Overlap
import Morf.Scan.Rescan
import Morf.Storage.Local
import Morf.Storage.Semaphore
import Morf.Storage.Streaming
import Morf.Utils.Cache
import Morf.Utils.Export
import Morf.Utils.Jira
import Morf.Utils.Reset
import Morf.Utils.Stream
import Morf.Verify.Aws
import Morf.Verify.Pairing
