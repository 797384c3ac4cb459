import SyncServiceUi.Framing
import SyncServiceUi.OnePerTick
import SyncServiceUi.Emission
import SyncServiceUi.Reassembly
import SyncServiceUi.TableCommute
import SyncServiceUi.TableUpdates
import SyncServiceUi.MainWindow
import SyncServiceUi.DialogEdit
import SyncServiceUi.RequestFraming
import SyncServiceUi.TwoStores
import SyncServiceUi.ProgressFrame
import SyncServiceUi.ModuleJson
import SyncServiceUi.ModuleCopy
import SyncServiceUi.ShownOrder
import SyncServiceUi.FolderUrl
import SyncServiceUi.ClassName
import SyncServiceUi.JsonRoundTrip
import SyncServiceUi.JsonPrefix
import SyncServiceUi.SerializerBuffers
import SyncServiceUi.ApplicationRuns
import SyncServiceUi.Binary64
import SyncServiceUi.CachedPowers
import SyncServiceUi.DigitGeneration
import SyncServiceUi.Grisu
