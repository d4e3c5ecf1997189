import BrBackup.Basic
import BrBackup.RangeTree
import BrBackup.OnBackupResponse
import BrBackup.SendBackup
import BrBackup.SendBackupProtocol
import BrBackup.FineGrainedFanIn
import BrBackup.FineGrainedLoop
import BrBackup.BackupRange
import BrBackup.BackupRanges
import BrBackup.GetTS
import BrBackup.SetStorage
import BrBackup.SafePoint
import BrBackup.FineGrainedSafety
import BrBackup.Coverage
